import ProgrammableCaching.Library.Contracts
import ProgrammableCaching.Faults
import ProgrammableCaching.Threads

/-! Handlers whose calls take turns while requests and replies get lost and storage media report
errors. Any call may meet any fault. -/

namespace ProgrammableCaching

open UnorderedMap Replicas Handler Pools

/-! ## A medium under a fault -/

section Struck

variable {σ : Type} [StorageInterface σ] [LawfulStorage σ] {f : Fault}

omit [LawfulStorage σ] in
/-- A failing `Get` leaves something in its output parameter and the medium alone. -/
theorem get_struck_of_error {junk : String} (h : f.readError = some junk) (s : σ)
    (key value : String) :
    StorageInterface.get (σ := Struck f σ) s key value = (.genericError, junk, s) := by
  cases f with
  | mk => cases h; rfl

theorem contents_get_struck (s : σ) (key value : String) :
    LawfulStorage.contents (σ := σ) (StorageInterface.get (σ := Struck f σ) s key value).2.2 =
      LawfulStorage.contents s := by
  cases h : f.readError with
  | none =>
      rw [World.get_struck h]
      exact LawfulStorage.contents_get s key value
  | some junk => rw [get_struck_of_error h]

/-- What a `Get` puts into its output parameter: the value, what a failure leaves there, or
nothing. -/
theorem value_get_struck (s : σ) (key value : String) :
    let v := (StorageInterface.get (σ := Struck f σ) s key value).2.1
    v = value ∨ f.readError = some v ∨ (LawfulStorage.contents s).lookup key = some v := by
  cases h : f.readError with
  | none =>
      rw [World.get_struck h]
      cases hlookup : (LawfulStorage.contents s).lookup key with
      | none => exact .inl (LawfulStorage.get_miss s key value hlookup).2
      | some v => exact .inr (.inr (by rw [(LawfulStorage.get_hit s key value v hlookup).2]))
  | some junk => exact .inr (.inl (by rw [get_struck_of_error h]))

theorem contents_put_struck (s : σ) (key value : String) :
    let s' : σ := (StorageInterface.put (σ := Struck f σ) s key value).2
    LawfulStorage.contents s' = LawfulStorage.contents s ∨
      LawfulStorage.contents s' = (LawfulStorage.contents s).insert key value := by
  cases h : f.writeError with
  | false =>
      rw [World.put_struck h]
      exact .inr (LawfulStorage.contents_put s key value)
  | true =>
      have hput : StorageInterface.put (σ := Struck f σ) s key value = (.genericError, s) :=
        if_pos h
      exact .inl (by rw [hput])

theorem contents_remove_struck (s : σ) (key : String) :
    let s' : σ := (StorageInterface.remove (σ := Struck f σ) s key).2
    LawfulStorage.contents s' = LawfulStorage.contents s ∨
      LawfulStorage.contents s' = (LawfulStorage.contents s).erase key := by
  cases h : f.writeError with
  | false =>
      rw [World.remove_struck h]
      exact .inr (LawfulStorage.contents_remove s key)
  | true =>
      have hremove : StorageInterface.remove (σ := Struck f σ) s key = (.genericError, s) :=
        if_pos h
      exact .inl (by rw [hremove])

end Struck

/-! ## A call under a fault -/

namespace Rpc

variable {σ : Type} [StorageInterface σ] {α β : Type}

omit [StorageInterface σ] in
/-- The request or the reply of a call to a running server may get lost; the caller is then left
with `failed`. -/
def deliver (d : Delivery) (failed : α) (call : Handler (World σ) α) : Handler (World σ) α :=
  fun w =>
    match call w with
    | .error e => .error e
    | .ok (a, w') =>
        match d with
        | .delivered => .ok (a, w')
        | .requestLost => .ok (failed, w)
        | .replyLost => .ok (failed, w')

/-- The effect of a call that meets the fault. -/
def faulty (f : Fault) {β : Type} : Rpc β → Handler (World σ) β
  | managerGet uri request =>
      deliver f.delivery (.unavailable, {}) (World.managerGet (σ := Struck f σ) uri request)
  | managerPut uri request =>
      deliver f.delivery .unavailable (World.managerPut (σ := Struck f σ) uri request)
  | managerRemove uri request =>
      deliver f.delivery .unavailable (World.managerRemove (σ := Struck f σ) uri request)
  | copyFromFetch uri request =>
      deliver (if f.fetchLost then .requestLost else .delivered) {}
        (World.copyFromFetch (σ := Struck f σ) uri request)
  | copyFromStore uri request reply =>
      deliver f.delivery .unavailable (World.copyFromStore (σ := Struck f σ) uri request reply)
  | storageChange request => deliver f.delivery .unavailable (World.storageChange request)

omit [StorageInterface σ] in
theorem deliver_delivered (failed : α) (call : Handler (World σ) α) :
    deliver .delivered failed call = call := by
  funext w
  unfold deliver
  cases call w <;> rfl

/-- Where nothing goes wrong. -/
theorem faulty_default (c : Rpc β) : (faulty {} c : Handler (World σ) β) = handle c := by
  cases c with
  | managerGet uri request =>
      exact deliver_delivered (.unavailable, {}) (World.managerGet uri request)
  | managerPut uri request =>
      exact deliver_delivered .unavailable (World.managerPut uri request)
  | managerRemove uri request =>
      exact deliver_delivered .unavailable (World.managerRemove uri request)
  | copyFromFetch uri request =>
      exact deliver_delivered {} (World.copyFromFetch uri request)
  | copyFromStore uri request reply =>
      exact deliver_delivered .unavailable (World.copyFromStore uri request reply)
  | storageChange request => exact deliver_delivered .unavailable (World.storageChange request)

/-- The storage operation of the call. -/
def op : Rpc β → Option (Op String String String)
  | managerPut uri request => some (.put uri request.key request.value)
  | managerRemove uri request => some (.remove uri request.key)
  | copyFromStore uri request reply => some (.put uri request.key reply.value)
  | managerGet _ _ | copyFromFetch _ _ | storageChange _ => none

/-- The answer says that `v` is the value of `k`. -/
def Tells : Rpc β → β → (k v : String) → Prop
  | managerGet _ request, b, k, v => k = request.key ∧ v = b.2.value
  | copyFromFetch _ request, b, k, v => k = request.key ∧ v = b.value
  | managerPut _ _, _, _, _ | managerRemove _ _, _, _, _ => False
  | copyFromStore _ _ _, _, _, _ | storageChange _, _, _, _ => False

variable [LawfulStorage σ] {f : Fault} {c : Rpc β} {w w' : World σ} {b : β}

/-- What a call can do, whatever goes wrong: it does its storage operation or none, and what it
tells is a value that some manager holds, or nothing, or what a failed read has left. -/
structure Outcome (f : Fault) (c : Rpc β) (w : World σ) (b : β) (w' : World σ) : Prop where
  value : w'.value = w.value ∨ ∃ op ∈ c.op, w'.value = Replicas.apply "" w.value op
  tells : ∀ k v, c.Tells b k v → v = "" ∨ f.readError = some v ∨ ∃ uri, w.value uri k = some v

omit [StorageInterface σ] [LawfulStorage σ] in
theorem deliver_ok {d : Delivery} {failed a : α} {call : Handler (World σ) α}
    (h : deliver d failed call w = .ok (a, w')) : ∃ a' w₁, call w = .ok (a', w₁) ∧
      (w' = w ∨ w' = w₁) ∧ (a = failed ∨ a = a') := by
  unfold deliver at h
  split at h
  · cases h
  · rename_i a' w₁ hcall
    refine ⟨a', w₁, hcall, ?_⟩
    cases d <;> cases h
    · exact ⟨.inr rfl, .inr rfl⟩
    · exact ⟨.inl rfl, .inl rfl⟩
    · exact ⟨.inr rfl, .inl rfl⟩

/-- A call that writes under a fault. -/
theorem writes_of_deliver {d : Delivery} {failed a : α} {uri key : String}
    {call : σ → α × σ} {o : Option String}
    (h : deliver d failed (World.managerCall uri call) w = .ok (a, w'))
    (hcall : ∀ s, LawfulStorage.contents (call s).2 = LawfulStorage.contents s ∨
      LawfulStorage.contents (call s).2 = match o with
        | some value => (LawfulStorage.contents s).insert key value
        | none => (LawfulStorage.contents s).erase key) :
    w'.value = w.value ∨ w'.value = Replicas.set w.value uri key o := by
  obtain ⟨_, w₁, hok, hw, _⟩ := deliver_ok h
  obtain ⟨s, hs, hr⟩ := World.managerCall_ok.mp hok
  cases hr
  rcases hw with rfl | rfl
  · exact .inl rfl
  rcases hcall s with hsame | hwritten
  · left
    refine (World.Effect.of_setManager hs [] (fun k => ?_) fun _ _ _ => rfl).value
    rw [hsame, ← World.value_of_lookup hs]
    rfl
  · right
    funext u k
    by_cases hu : u = uri
    · subst hu
      rw [World.value_of_lookup (Finmap.lookup_insert _), hwritten]
      by_cases hk : k = key
      · subst hk
        cases o <;> simp
      · cases o <;> simp [Replicas.set, hk, World.value_of_lookup hs]
    · simp [World.value, World.setManager, Replicas.set, hu]

theorem tells_of_get {s : σ} {uri key v : String} (hs : w.managers.lookup uri = some s)
    (hv : v = (StorageInterface.get (σ := Struck f σ) s key "").2.1) :
    v = "" ∨ f.readError = some v ∨ ∃ uri, w.value uri key = some v := by
  rcases hv ▸ value_get_struck (f := f) s key "" with hblank | hjunk | hlookup
  · exact .inl hblank
  · exact .inr (.inl hjunk)
  · exact .inr (.inr ⟨uri, by rw [World.value_of_lookup hs, hlookup]⟩)

/-- A read under a fault changes nothing. -/
theorem value_setManager_get {s : σ} {uri key : String} (hs : w.managers.lookup uri = some s) :
    (w.setManager uri (StorageInterface.get (σ := Struck f σ) s key "").2.2 : World σ).value =
      w.value := by
  refine (World.Effect.of_setManager hs [] (fun k => ?_) fun _ _ _ => rfl).value
  rw [contents_get_struck, ← World.value_of_lookup hs]
  rfl

omit [LawfulStorage σ] in
theorem copyFetch_cases (w : World σ) (request : CopyFromRequest) :
    w.managers.lookup request.dstUri = none ∧ w.copyFetch request = ({}, w) ∨
      ∃ s, w.managers.lookup request.dstUri = some s ∧ w.copyFetch request =
        ((StorageManager.get s { key := request.key }).2.1,
          w.setManager request.dstUri (StorageManager.get s { key := request.key }).2.2) := by
  rw [World.copyFetch_eq]
  cases h : w.managers.lookup request.dstUri with
  | none => exact .inl ⟨rfl, rfl⟩
  | some s => exact .inr ⟨s, rfl, rfl⟩

theorem outcome (h : faulty f c w = .ok (b, w')) : Outcome f c w b w' := by
  cases c with
  | managerPut uri request =>
      have h : deliver f.delivery .unavailable (World.managerPut (σ := Struck f σ) uri request) w =
        .ok (b, w') := h
      refine ⟨?_, fun _ _ htells => htells.elim⟩
      rcases writes_of_deliver (σ := σ) (o := some request.value) h
        (fun s => contents_put_struck (σ := σ) (f := f) s _ _) with hsame | hset
      · exact .inl hsame
      · exact .inr ⟨_, rfl, hset⟩
  | managerRemove uri request =>
      have h : deliver f.delivery .unavailable
        (World.managerRemove (σ := Struck f σ) uri request) w = .ok (b, w') := h
      refine ⟨?_, fun _ _ htells => htells.elim⟩
      rcases writes_of_deliver (σ := σ) (o := none) h
        (fun s => contents_remove_struck (σ := σ) (f := f) s _) with hsame | hset
      · exact .inl hsame
      · exact .inr ⟨_, rfl, hset⟩
  | copyFromStore uri request reply =>
      have h : deliver f.delivery .unavailable
        (World.copyFromStore (σ := Struck f σ) uri request reply) w = .ok (b, w') := h
      refine ⟨?_, fun _ _ htells => htells.elim⟩
      rcases writes_of_deliver (σ := σ) (o := some reply.value) h
        (fun s => contents_put_struck (σ := σ) (f := f) s _ _) with hsame | hset
      · exact .inl hsame
      · exact .inr ⟨_, rfl, hset⟩
  | storageChange request =>
      have h : deliver f.delivery .unavailable (World.storageChange request) w = .ok (b, w') := h
      refine ⟨.inl ?_, fun _ _ htells => htells.elim⟩
      obtain ⟨_, w₁, hok, hw, _⟩ := deliver_ok h
      cases hok
      rcases hw with rfl | rfl <;> rfl
  | managerGet uri request =>
      have h : deliver f.delivery (.unavailable, {})
        (World.managerGet (σ := Struck f σ) uri request) w = .ok (b, w') := h
      obtain ⟨a', w₁, hok, hw, hb⟩ := deliver_ok h
      obtain ⟨s, hs, hr⟩ := World.managerCall_ok.mp hok
      cases hr
      constructor
      · left
        rcases hw with rfl | rfl
        · rfl
        · exact value_setManager_get hs
      · rintro k v ⟨rfl, rfl⟩
        rcases hb with rfl | rfl
        · exact .inl rfl
        · exact tells_of_get hs rfl
  | copyFromFetch uri request =>
      have h : deliver (if f.fetchLost then .requestLost else .delivered) {}
        (World.copyFromFetch (σ := Struck f σ) uri request) w = .ok (b, w') := h
      obtain ⟨a', w₁, hok, hw, hb⟩ := deliver_ok h
      unfold World.copyFromFetch at hok
      split at hok
      · have hfetch := Except.ok.inj hok
        rcases copyFetch_cases (σ := Struck f σ) w request with ⟨_, hnone⟩ | ⟨s, hs, hsome⟩
        · cases hnone.symm.trans hfetch
          refine ⟨.inl (by rcases hw with rfl | rfl <;> rfl), ?_⟩
          rintro k v ⟨rfl, rfl⟩
          rcases hb with rfl | rfl <;> exact .inl rfl
        · cases hsome.symm.trans hfetch
          constructor
          · left
            rcases hw with rfl | rfl
            · rfl
            · exact value_setManager_get hs
          · rintro k v ⟨rfl, rfl⟩
            rcases hb with rfl | rfl
            · exact .inl rfl
            · exact tells_of_get hs rfl
      · cases hok

end Rpc

/-! ## Clients that serve requests -/

/-- What is seen of a call: the call, its fault and its answer. -/
abbrev CallSeen := Σ β, Rpc β × Fault × β

/-- A call that meets some fault. -/
def FaultyServe {σ : Type} [StorageInterface σ] {β : Type} (c : Rpc β) (w : World σ) (l : CallSeen)
    (b : β) (w' : World σ) : Prop :=
  ∃ f, l = ⟨β, c, f, b⟩ ∧ Rpc.faulty f c w = .ok (b, w')

/-- The handler of a request; that of a `Get` comes back with the key and the reply. -/
abbrev RequestThread := ClientThread (Option (String × GetReply))

namespace StorageClient

def getThread (d : RuleDb) (request : GetRequest) : RequestThread := do
  let (_, reply) ← get d request
  return some (request.key, reply)

def putThread (d : RuleDb) (request : PutRequest) : RequestThread := do
  let _ ← put d request
  return none

/-- The handlers of clients whose rules are in `allowed`. -/
inductive Handles (allowed : RuleDb → Prop) : RequestThread → Prop
  | get {d : RuleDb} (request : GetRequest) : allowed d → Handles allowed (getThread d request)
  | put {d : RuleDb} (request : PutRequest) : allowed d → Handles allowed (putThread d request)

end StorageClient

/-- A request arrives at a client, or a handler makes a call, which may meet any fault. -/
abbrev FaultyStep {σ : Type} [StorageInterface σ] (allowed : RuleDb → Prop) :
    Pool (World σ) RequestThread → Pools.Event RequestThread CallSeen →
      Pool (World σ) RequestThread → Prop :=
  PoolStep (StorageClient.Handles allowed) (Contracts.CallStep FaultyServe)

theorem faulty_step {σ : Type} [StorageInterface σ] {allowed : RuleDb → Prop} {w : World σ}
    {ts : List RequestThread} (i : ℕ) {β : Type} {c : Rpc β} (f : Fault) {k : β → RequestThread}
    {b : β} {w' : World σ} (hi : ts[i]? = some (.call c k))
    (hcall : Rpc.faulty f c w = .ok (b, w')) :
    FaultyStep allowed ⟨w, ts⟩ (.step i ⟨β, c, f, b⟩) ⟨w', ts.set i (k b)⟩ :=
  .step hi ⟨β, c, k, b, rfl, ⟨f, rfl, hcall⟩, rfl⟩

/-! ## A copy whose source cannot be read -/

section LostCopy

open World.TwoManagers

def copyRules : RuleDb :=
  RuleDb.addRule {} ⟨.get, "k", [.copyFrom ⟨"k", second, first⟩, .get ⟨"k", second⟩]⟩

/-- The `Get` of the copy fails, and the blank it leaves is what the client reads. -/
def lostCopy : List (Pools.Event RequestThread CallSeen) :=
  [.spawn (StorageClient.getThread copyRules ⟨"k"⟩),
    .step 0 ⟨_, .copyFromFetch second.uri ⟨"k", first.uri⟩, { fetchLost := true }, {}⟩,
    .step 0 ⟨_, .copyFromStore second.uri ⟨"k", first.uri⟩ {}, {}, .ok⟩,
    .step 0 ⟨_, .storageChange ⟨[.copyFrom ⟨"k", second, first⟩]⟩, {}, .ok⟩,
    .step 0 ⟨_, .managerGet second.uri ⟨"k"⟩, {}, (.ok, {})⟩]

theorem reaches_lostCopy (allowed : RuleDb → Prop) (h : allowed copyRules) :
    ∃ P, Runs.Reaches (FaultyStep allowed) ⟨twoManagers, []⟩ lostCopy P ∧
      P.threads[0]? = some (.done (some ("k", {}))) := by
  refine ⟨_, .cons (.spawn (.get _ h))
    (.cons (faulty_step 0 { fetchLost := true } rfl rfl)
    (.cons (faulty_step 0 {} rfl rfl) (.cons (faulty_step 0 {} rfl rfl)
    (.cons (faulty_step 0 {} rfl rfl) .nil)))), ?_⟩
  rfl

end LostCopy

end ProgrammableCaching
