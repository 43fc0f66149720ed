import ProgrammableCaching.ClientCalls

/-! Calls to managers that go wrong: requests and replies that get lost, and storage
operations that report an error. A fault changes what a manager or its medium does
with one call; the code of the managers and of the client stays the same. -/

namespace ProgrammableCaching

open UnorderedMap Replicas Handler

/-- How a call reaches its server. -/
inductive Delivery
  | delivered
  | requestLost
  | replyLost
  deriving DecidableEq, Repr

/-- What goes wrong with one call to a manager. -/
structure Fault where
  delivery : Delivery := .delivered
  /-- The `Get` that `CopyFrom` sends fails. -/
  fetchLost : Bool := false
  /-- The medium reports an error for a `Get` and leaves this in the output parameter. -/
  readError : Option String := none
  /-- The medium reports an error for a `Put` or a `Remove`. -/
  writeError : Bool := false
  deriving DecidableEq, Repr

/-- A storage medium during a call with the fault `f`. -/
def Struck (_ : Fault) (σ : Type) : Type := σ

/-- An operation that reports an error leaves the store unchanged. -/
instance (f : Fault) {σ : Type} [StorageInterface σ] : StorageInterface (Struck f σ) where
  get s key value :=
    match f.readError with
    | some junk => (.genericError, junk, s)
    | none => StorageInterface.get (σ := σ) s key value
  put s key value :=
    if f.writeError then (.genericError, s) else StorageInterface.put (σ := σ) s key value
  remove s key :=
    if f.writeError then (.genericError, s) else StorageInterface.remove (σ := σ) s key
  getAllKeys s keys := StorageInterface.getAllKeys (σ := σ) s keys
  getStorageType s := StorageInterface.getStorageType (σ := σ) s
  getStorageName s := StorageInterface.getStorageName (σ := σ) s

namespace ManagerCall

def uri : ManagerCall → String
  | get uri _ | put uri _ | remove uri _ | copyFrom uri _ => uri

def isCopyFrom : ManagerCall → Bool
  | copyFrom _ _ => true
  | get _ _ | put _ _ | remove _ _ => false

/-- The storage operations of the call that write. -/
def ops : ManagerCall → List (Op String String String)
  | get _ _ => []
  | put uri request => [.put uri request.key request.value]
  | remove uri request => [.remove uri request.key]
  | copyFrom uri request => [.copy uri request.dstUri request.key]

/-- The call finds the key that it reads. -/
def Fed (st : Stores String String String) : ManagerCall → Prop
  | get uri request => (st uri request.key).isSome
  | copyFrom _ request => (st request.dstUri request.key).isSome
  | put _ _ | remove _ _ => True

instance (st : Stores String String String) : (c : ManagerCall) → Decidable (c.Fed st)
  | .get uri request => inferInstanceAs (Decidable ((st uri request.key).isSome = true))
  | .copyFrom _ request =>
      inferInstanceAs (Decidable ((st request.dstUri request.key).isSome = true))
  | .put _ _ | .remove _ _ => .isTrue trivial

end ManagerCall

/-- The fault does not keep the storage operations of the call from succeeding. -/
def Fault.Spares (f : Fault) (c : ManagerCall) : Prop :=
  f.delivery ≠ .requestLost ∧
    match c with
    | .get _ _ => f.readError = none
    | .put _ _ | .remove _ _ => f.writeError = false
    | .copyFrom _ _ => f.fetchLost = false ∧ f.readError = none ∧ f.writeError = false

instance (f : Fault) (c : ManagerCall) : Decidable (f.Spares c) := by
  cases c <;> unfold Fault.Spares <;> infer_instance

namespace World

variable {σ : Type} [StorageInterface σ]

/-- The storage operations of the call, as its manager makes them, all report
`OK`. -/
def storageOk (w : World σ) : ManagerCall → Bool
  | .get uri request =>
      (w.managers.lookup uri).any fun s => (StorageInterface.get s request.key "").1 = .ok
  | .put uri request =>
      (w.managers.lookup uri).any fun s =>
        (StorageInterface.put s request.key request.value).1 = .ok
  | .remove uri request =>
      (w.managers.lookup uri).any fun s => (StorageInterface.remove s request.key).1 = .ok
  | .copyFrom uri request =>
      let (reply, w') := w.copyFetch request
      ((w.managers.lookup request.dstUri).any fun s =>
          (StorageInterface.get s request.key "").1 = .ok) &&
        (w'.managers.lookup uri).any fun s =>
          (StorageInterface.put s request.key reply.value).1 = .ok

/-- The request arrives, and the storage operations of the call succeed. -/
def succeeds (f : Fault) (w : World σ) (c : ManagerCall) : Bool :=
  decide (f.delivery ≠ .requestLost) && !(f.fetchLost && c.isCopyFrom) &&
    storageOk (σ := Struck f σ) w c

/-- `CopyFrom` stores what came back of its `Get`, whether that came back or not. -/
def faultyCopyFrom (f : Fault) (uri : String) (request : CopyFromRequest) :
    Handler (World σ) Status :=
  if f.fetchLost then copyFromStore uri request {} else managerCopyFrom uri request

/-! ## What a call does under a fault -/

section

variable {α : Type}

/-- The call comes back, and the same managers run. -/
def Keeps (w : World σ) (r : Except Failure (α × World σ)) : Prop :=
  ∃ a w', r = .ok (a, w') ∧ ∀ uri, w'.Running uri ↔ w.Running uri

omit [StorageInterface σ] in
theorem managerCall_keeps {uri : String} {w : World σ} (h : w.Running uri) (call : σ → α × σ) :
    Keeps w (managerCall uri call w) := by
  obtain ⟨r, hr⟩ := managerCall_total h call
  obtain ⟨s, _, rfl⟩ := managerCall_ok.mp hr
  exact ⟨_, _, hr, running_setManager _ h⟩

theorem running_copyFetch (w : World σ) (request : CopyFromRequest) (uri : String) :
    (w.copyFetch request).2.Running uri ↔ w.Running uri := by
  unfold copyFetch
  cases h : w.managers.lookup request.dstUri with
  | none => rfl
  | some s => exact running_setManager _ ((w.running_iff _).mpr ⟨s, h⟩) uri

theorem managerCopyFrom_keeps {uri : String} {w : World σ} (h : w.Running uri)
    (request : CopyFromRequest) : Keeps w (managerCopyFrom uri request w) := by
  have hfetch : copyFromFetch uri request w = .ok (w.copyFetch request) := if_pos h
  obtain ⟨a, w', hstore, hrun⟩ := managerCall_keeps ((w.running_copyFetch request uri).mpr h)
    fun s : σ => (Status.ok, (StorageInterface.put s request.key (w.copyFetch request).1.value).2)
  exact ⟨a, w', (bind_of_ok hfetch).trans hstore,
    fun u => (hrun u).trans (w.running_copyFetch request u)⟩

theorem faultyCopyFrom_keeps {uri : String} {w : World σ} (h : w.Running uri) (f : Fault)
    (request : CopyFromRequest) : Keeps w (faultyCopyFrom f uri request w) := by
  unfold faultyCopyFrom
  split
  · exact managerCall_keeps h _
  · exact managerCopyFrom_keeps h request

end

section Lawful

variable [LawfulStorage σ] {f : Fault} {w : World σ} {uri : String}

omit [LawfulStorage σ] in
/-- Without an error the medium does what it always does. -/
theorem get_struck (h : f.readError = none) (s : σ) (key value : String) :
    StorageInterface.get (σ := Struck f σ) s key value =
      StorageInterface.get (σ := σ) s key value := by
  show (match f.readError with
    | some junk => (StorageStatus.genericError, junk, s)
    | none => StorageInterface.get (σ := σ) s key value) = _
  rw [h]

omit [LawfulStorage σ] in
theorem put_struck (h : f.writeError = false) (s : σ) (key value : String) :
    StorageInterface.put (σ := Struck f σ) s key value =
      StorageInterface.put (σ := σ) s key value :=
  if_neg (by simp [h])

omit [LawfulStorage σ] in
theorem remove_struck (h : f.writeError = false) (s : σ) (key : String) :
    StorageInterface.remove (σ := Struck f σ) s key = StorageInterface.remove (σ := σ) s key :=
  if_neg (by simp [h])

/-- The medium finds a key exactly when no error strikes and it holds the key. -/
theorem get_struck_ok (s : σ) (key value : String) :
    (StorageInterface.get (σ := Struck f σ) s key value).1 = .ok ↔
      f.readError = none ∧ ((LawfulStorage.contents s).lookup key).isSome := by
  cases h : f.readError with
  | some junk =>
      have hget : StorageInterface.get (σ := Struck f σ) s key value =
          (.genericError, junk, s) := by
        show (match f.readError with
          | some junk => (StorageStatus.genericError, junk, s)
          | none => StorageInterface.get (σ := σ) s key value) = _
        rw [h]
      simp [hget]
  | none =>
      rw [get_struck h]
      cases hlookup : (LawfulStorage.contents s).lookup key with
      | none => simp [(LawfulStorage.get_miss s key value hlookup).1]
      | some v => simp [(LawfulStorage.get_hit s key value v hlookup).1]

theorem put_struck_ok (s : σ) (key value : String) :
    (StorageInterface.put (σ := Struck f σ) s key value).1 = .ok ↔ f.writeError = false := by
  cases h : f.writeError with
  | false => simp [put_struck h]
  | true =>
      have hput : StorageInterface.put (σ := Struck f σ) s key value = (.genericError, s) :=
        if_pos h
      simp [hput]

theorem remove_struck_ok (s : σ) (key : String) :
    (StorageInterface.remove (σ := Struck f σ) s key).1 = .ok ↔ f.writeError = false := by
  cases h : f.writeError with
  | false => simp [remove_struck h]
  | true =>
      have hremove : StorageInterface.remove (σ := Struck f σ) s key = (.genericError, s) :=
        if_pos h
      simp [hremove]

omit [StorageInterface σ] [LawfulStorage σ] in
theorem any_lookup {p : σ → Bool} (h : w.Running uri) {P : Prop} (hp : ∀ s, p s = true ↔ P) :
    (w.managers.lookup uri).any p = true ↔ P := by
  obtain ⟨s, hs⟩ := (w.running_iff uri).mp h
  rw [hs]
  exact hp s

theorem any_lookup_get (key value : String) :
    ((w.managers.lookup uri).any fun s : σ =>
        (StorageInterface.get (σ := Struck f σ) s key value).1 = .ok) = true ↔
      f.readError = none ∧ (w.value uri key).isSome := by
  cases h : w.managers.lookup uri with
  | none => simp [World.value, h]
  | some s =>
      rw [Option.any_some, decide_eq_true_eq, get_struck_ok, value_of_lookup h]

/-- **The storage operations of a call to a running manager succeed exactly when the
fault spares the call and the call finds its key.** -/
theorem succeeds_iff {c : ManagerCall} (h : w.Running c.uri) :
    w.succeeds f c = true ↔ f.Spares c ∧ c.Fed w.value := by
  unfold succeeds Fault.Spares
  rw [Bool.and_eq_true, Bool.and_eq_true, decide_eq_true_eq]
  cases c with
  | get uri request =>
      have hread : storageOk (σ := Struck f σ) w (.get uri request) = true ↔
          f.readError = none ∧ (w.value uri request.key).isSome :=
        any_lookup_get (σ := σ) request.key ""
      simp [hread, ManagerCall.isCopyFrom, ManagerCall.Fed, and_assoc]
  | put uri request =>
      have hwrite : storageOk (σ := Struck f σ) w (.put uri request) = true ↔
          f.writeError = false :=
        any_lookup h fun s => by rw [decide_eq_true_eq, put_struck_ok]
      simp [hwrite, ManagerCall.isCopyFrom, ManagerCall.Fed]
  | remove uri request =>
      have hwrite : storageOk (σ := Struck f σ) w (.remove uri request) = true ↔
          f.writeError = false :=
        any_lookup h fun s => by rw [decide_eq_true_eq, remove_struck_ok]
      simp [hwrite, ManagerCall.isCopyFrom, ManagerCall.Fed]
  | copyFrom uri request =>
      have hcopy : storageOk (σ := Struck f σ) w (.copyFrom uri request) = true ↔
          (f.readError = none ∧ (w.value request.dstUri request.key).isSome) ∧
            f.writeError = false := by
        refine (Bool.and_eq_true _ _).to_iff.trans
          (and_congr (any_lookup_get (σ := σ) request.key "") ?_)
        exact any_lookup ((running_copyFetch (σ := Struck f σ) w request uri).mpr h)
          fun s => decide_eq_true_iff.trans (put_struck_ok (σ := σ) s _ _)
      rw [hcopy]
      simp [ManagerCall.isCopyFrom, ManagerCall.Fed]
      tauto

/-! A call that is spared does what it does without faults. -/

omit [LawfulStorage σ] in
theorem storageManagerGet_struck (h : f.readError = none) (s : σ) (request : GetRequest) :
    StorageManager.get (σ := Struck f σ) s request = StorageManager.get (σ := σ) s request :=
  congrArg (fun r : StorageStatus × String × σ =>
    (Status.ok, ({ value := r.2.1 } : GetReply), r.2.2)) (get_struck h s request.key "")

omit [LawfulStorage σ] in
theorem managerGet_struck (h : f.readError = none) (request : GetRequest) :
    managerGet (σ := Struck f σ) uri request = managerGet (σ := σ) uri request :=
  congrArg (managerCall uri) (funext fun s : σ =>
    congrArg (fun r : Status × GetReply × σ => ((r.1, r.2.1), r.2.2))
      (storageManagerGet_struck h s request))

omit [LawfulStorage σ] in
theorem managerPut_struck (h : f.writeError = false) (request : PutRequest) :
    managerPut (σ := Struck f σ) uri request = managerPut (σ := σ) uri request :=
  congrArg (managerCall uri) (funext fun s : σ =>
    congrArg (fun r : StorageStatus × σ => (Status.ok, r.2))
      (put_struck h s request.key request.value))

omit [LawfulStorage σ] in
theorem managerRemove_struck (h : f.writeError = false) (request : RemoveRequest) :
    managerRemove (σ := Struck f σ) uri request = managerRemove (σ := σ) uri request :=
  congrArg (managerCall uri) (funext fun s : σ =>
    congrArg (fun r : StorageStatus × σ => (Status.ok, r.2)) (remove_struck h s request.key))

omit [LawfulStorage σ] in
theorem copyFetch_eq (request : CopyFromRequest) : w.copyFetch request =
    (w.managers.lookup request.dstUri).elim ({}, w) fun s =>
      ((StorageManager.get s { key := request.key }).2.1,
        w.setManager request.dstUri (StorageManager.get s { key := request.key }).2.2) := by
  unfold copyFetch
  cases w.managers.lookup request.dstUri <;> rfl

omit [LawfulStorage σ] in
theorem copyFetch_struck (h : f.readError = none) (request : CopyFromRequest) :
    copyFetch (σ := Struck f σ) w request = copyFetch (σ := σ) w request := by
  have hread : ∀ o : Option σ,
      o.elim (({} : GetReply), w) (fun s =>
        ((StorageManager.get (σ := Struck f σ) s { key := request.key }).2.1,
          w.setManager request.dstUri
            (StorageManager.get (σ := Struck f σ) s { key := request.key }).2.2)) =
      o.elim (({} : GetReply), w) fun s =>
        ((StorageManager.get s { key := request.key }).2.1,
          w.setManager request.dstUri (StorageManager.get s { key := request.key }).2.2) := by
    intro o
    cases o with
    | none => rfl
    | some s => rw [Option.elim_some, Option.elim_some, storageManagerGet_struck h]
  exact (copyFetch_eq (σ := Struck f σ) request).trans
    ((hread _).trans (copyFetch_eq request).symm)

omit [LawfulStorage σ] in
theorem copyFromStore_struck (hwrite : f.writeError = false) (request : CopyFromRequest) :
    copyFromStore (σ := Struck f σ) uri request = copyFromStore (σ := σ) uri request :=
  funext fun reply => congrArg (managerCall uri) (funext fun s : σ =>
    congrArg (fun r : StorageStatus × σ => (Status.ok, r.2))
      (put_struck hwrite s request.key reply.value))

omit [LawfulStorage σ] in
theorem managerCopyFrom_struck (hread : f.readError = none) (hwrite : f.writeError = false)
    (request : CopyFromRequest) :
    managerCopyFrom (σ := Struck f σ) uri request = managerCopyFrom (σ := σ) uri request := by
  have hfetch : copyFromFetch (σ := Struck f σ) uri request = copyFromFetch (σ := σ) uri request :=
    funext fun w : World σ => congrArg
      (fun r : GetReply × World σ =>
        if w.Running uri then (Except.ok r : Except Failure _) else .error .undelivered)
      (copyFetch_struck hread request)
  exact congrArg₂ (fun (fetch : Handler (World σ) GetReply) store => fetch >>= store) hfetch
    (copyFromStore_struck hwrite request)

end Lawful

end World

/-- A world and the faults that its calls to managers meet, in their order. The log
says of every call to a manager whether its storage operations succeeded, and
the reports are what the master was told. -/
structure FaultyWorld (σ : Type) where
  world : World σ
  faults : ℕ → Fault
  log : List (ManagerCall × Bool) := []
  reports : List Action := []

namespace FaultyWorld

variable {σ : Type} [StorageInterface σ]

/-- The fault that the next call meets. -/
def fault (w : FaultyWorld σ) : Fault := w.faults w.log.length

/-- The next call leads to `world`. -/
def record (w : FaultyWorld σ) (world : World σ) (c : ManagerCall) : FaultyWorld σ :=
  { w with world, log := w.log ++ [(c, w.world.succeeds w.fault c)] }

/-- A call to a manager under the next fault. When a message gets lost, the client
gets the status and the reply of a failed call. -/
def managerCall {α : Type} (c : ManagerCall) (failed : α)
    (call : Fault → Handler (World σ) α) : Handler (FaultyWorld σ) α := fun w =>
  if w.world.Running c.uri then
    match w.fault.delivery with
    | .requestLost => .ok (failed, w.record w.world c)
    | .delivered =>
        match call w.fault w.world with
        | .ok (a, world) => .ok (a, w.record world c)
        | .error e => .error e
    | .replyLost =>
        match call w.fault w.world with
        | .ok (_, world) => .ok (failed, w.record world c)
        | .error e => .error e
  else .error .undelivered

def handle {β : Type} : ClientCall β → Handler (FaultyWorld σ) β
  | .managerGet uri request => managerCall (.get uri request) (.unavailable, {}) fun f =>
      World.managerGet (σ := Struck f σ) uri request
  | .managerPut uri request => managerCall (.put uri request) .unavailable fun f =>
      World.managerPut (σ := Struck f σ) uri request
  | .managerRemove uri request => managerCall (.remove uri request) .unavailable fun f =>
      World.managerRemove (σ := Struck f σ) uri request
  | .managerCopyFrom uri request => managerCall (.copyFrom uri request) .unavailable fun f =>
      World.faultyCopyFrom (σ := Struck f σ) f uri request
  | .storageChange request => fun w =>
      match World.storageChange request w.world with
      | .ok (status, world) =>
          .ok (status, { w with world, reports := w.reports ++ request.storageChange })
      | .error e => .error e

/-! ## One call -/

section Lawful

variable [LawfulStorage σ] {w w' : FaultyWorld σ} {c : ManagerCall} {β : Type}

/-- The storage operations of the next call succeed: its fault spares it, and it finds
the key that it reads. -/
def Served (w : FaultyWorld σ) (c : ManagerCall) : Prop :=
  w.fault.Spares c ∧ c.Fed w.world.value

/-- The call led from `w` to `w'`. When its storage operations succeeded, they changed
the managers as they should. -/
structure Performs (w : FaultyWorld σ) (c : ManagerCall) (w' : FaultyWorld σ) : Prop where
  faults : w'.faults = w.faults
  reports : w'.reports = w.reports
  running : ∀ uri, w'.world.Running uri ↔ w.world.Running uri
  log : ∃ succeeded, w'.log = w.log ++ [(c, succeeded)] ∧ (succeeded = true ↔ w.Served c)
  value : w.Served c → w'.world.value = run "" w.world.value c.ops

theorem performs_record {world : World σ} (h : w.world.Running c.uri)
    (hrun : ∀ uri, world.Running uri ↔ w.world.Running uri)
    (hvalue : w.Served c → world.value = run "" w.world.value c.ops) :
    w.Performs c (w.record world c) where
  faults := rfl
  reports := rfl
  running := hrun
  log := ⟨_, rfl, World.succeeds_iff h⟩
  value := hvalue

theorem managerCall_performs {failed : β} (call : Fault → Handler (World σ) β)
    (h : w.world.Running c.uri) (hkeeps : World.Keeps w.world (call w.fault w.world))
    (heffect : w.Served c → ∀ b world, call w.fault w.world = .ok (b, world) →
      World.Effect c.ops w.world world) :
    ∃ b w', managerCall c failed call w = .ok (b, w') ∧ w.Performs c w' := by
  obtain ⟨b, world, hcall, hrun⟩ := hkeeps
  have hvalue : w.Served c → world.value = run "" w.world.value c.ops :=
    fun hserved => (heffect hserved b world hcall).value
  unfold managerCall
  rw [if_pos h, hcall]
  cases hd : w.fault.delivery with
  | delivered => exact ⟨_, _, rfl, performs_record h hrun hvalue⟩
  | replyLost => exact ⟨_, _, rfl, performs_record h hrun hvalue⟩
  | requestLost =>
      exact ⟨_, _, rfl, performs_record h (fun _ => Iff.rfl) fun hserved =>
        absurd hd hserved.1.1⟩

/-- A call to a manager comes back when the manager is running. -/
theorem handle_performs {call : ClientCall β} (hc : call.managerCall = some c)
    (h : w.world.Running c.uri) :
    ∃ b w', handle call w = .ok (b, w') ∧ w.Performs c w' := by
  cases call with
  | managerGet uri request =>
      cases hc
      refine managerCall_performs (fun f => World.managerGet (σ := Struck f σ) uri request) h ?_
        fun hserved b world hcall => ?_
      · exact World.managerCall_keeps h _
      have hcall : World.managerGet (σ := Struck w.fault σ) uri request w.world =
        .ok (b, world) := hcall
      rw [World.managerGet_struck hserved.1.2] at hcall
      exact (World.managerGet_ok hcall).2
  | managerPut uri request =>
      cases hc
      refine managerCall_performs (fun f => World.managerPut (σ := Struck f σ) uri request) h ?_
        fun hserved b world hcall => ?_
      · exact World.managerCall_keeps h _
      have hcall : World.managerPut (σ := Struck w.fault σ) uri request w.world =
        .ok (b, world) := hcall
      rw [World.managerPut_struck hserved.1.2] at hcall
      exact (World.managerPut_ok hcall).2
  | managerRemove uri request =>
      cases hc
      refine managerCall_performs (fun f => World.managerRemove (σ := Struck f σ) uri request) h ?_
        fun hserved b world hcall => ?_
      · exact World.managerCall_keeps h _
      have hcall : World.managerRemove (σ := Struck w.fault σ) uri request w.world =
        .ok (b, world) := hcall
      rw [World.managerRemove_struck hserved.1.2] at hcall
      exact (World.managerRemove_ok hcall).2
  | managerCopyFrom uri request =>
      cases hc
      refine managerCall_performs
        (fun f => World.faultyCopyFrom (σ := Struck f σ) f uri request) h ?_
        fun hserved b world hcall => ?_
      · exact World.faultyCopyFrom_keeps (σ := Struck w.fault σ) h w.fault request
      obtain ⟨_, hfetch, hread, hwrite⟩ := hserved.1
      have hcall : World.faultyCopyFrom (σ := Struck w.fault σ) w.fault uri request w.world =
        .ok (b, world) := hcall
      rw [World.faultyCopyFrom, if_neg (by simp [hfetch]),
        World.managerCopyFrom_struck hread hwrite] at hcall
      exact (World.managerCopyFrom_ok hcall).2
  | storageChange request => cases hc

/-- The reply to a `Get` that is served carries the value, if it arrives. -/
theorem managerGet_reply {uri : String} {request : GetRequest} {b : Status × GetReply}
    (h : handle (.managerGet uri request) w = .ok (b, w')) (hserved : w.Served (.get uri request)) :
    ∃ v, w.world.value uri request.key = some v ∧
      b.2.value = if w.fault.delivery = .delivered then v else "" := by
  obtain ⟨v, hv⟩ := Option.isSome_iff_exists.mp hserved.2
  refine ⟨v, hv, ?_⟩
  have h : managerCall (.get uri request) ((.unavailable, {}) : Status × GetReply)
      (fun f => World.managerGet (σ := Struck f σ) uri request) w = .ok (b, w') := h
  unfold managerCall at h
  split at h
  · cases hd : w.fault.delivery with
    | requestLost => exact absurd hd hserved.1.1
    | replyLost =>
        simp only [hd] at h
        split at h <;> cases h
        rfl
    | delivered =>
        simp only [hd] at h
        split at h <;> cases h
        rename_i hcall
        have hcall : World.managerGet (σ := Struck w.fault σ) uri request w.world =
          .ok (b, _) := hcall
        rw [World.managerGet_struck hserved.1.2] at hcall
        have hb : b = (.ok, { value := (w.world.value uri request.key).getD "" }) :=
          (World.managerGet_ok hcall).1
        rw [hb, hv]
        rfl
  · cases h

omit [LawfulStorage σ] in
theorem handle_undelivered {call : ClientCall β} (hc : call.managerCall = some c)
    (h : ¬ w.world.Running c.uri) : handle call w = .error .undelivered := by
  cases call with
  | storageChange request => cases hc
  | managerGet uri request => cases hc; exact if_neg h
  | managerPut uri request => cases hc; exact if_neg h
  | managerRemove uri request => cases hc; exact if_neg h
  | managerCopyFrom uri request => cases hc; exact if_neg h

end Lawful

end FaultyWorld

end ProgrammableCaching
