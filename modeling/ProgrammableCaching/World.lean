import ProgrammableCaching.Library.Replicas
import ProgrammableCaching.StorageManager
import ProgrammableCaching.StorageMaster
import ProgrammableCaching.StorageClient

/-! The running managers and the master as the other end of a client's calls,
and what every call does to the contents of the managers. -/

namespace ProgrammableCaching

open UnorderedMap Replicas

/-- The running storage managers by the uri they listen at, and the master. -/
structure World (σ : Type) where
  managers : UMap String σ := ∅
  master : StorageMaster := {}

namespace World

variable {σ : Type}

/-- A manager listens at `uri`. -/
def Running (w : World σ) (uri : String) : Prop := uri ∈ w.managers

instance (w : World σ) (uri : String) : Decidable (w.Running uri) :=
  inferInstanceAs (Decidable (_ ∈ _))

def setManager (w : World σ) (uri : String) (s : σ) : World σ :=
  { w with managers := w.managers.insert uri s }

/-- The manager stubs wait for the server to be ready, so a call to an address
without one does not come back. -/
def managerCall {α : Type} (uri : String) (call : σ → α × σ) : Handler (World σ) α := fun w =>
  match w.managers.lookup uri with
  | some s => let (a, s') := call s; .ok (a, w.setManager uri s')
  | none => .error .undelivered

@[simp] theorem setManager_master (w : World σ) (uri : String) (s : σ) :
    (w.setManager uri s).master = w.master := rfl

theorem running_iff (w : World σ) (uri : String) :
    w.Running uri ↔ ∃ s, w.managers.lookup uri = some s := Finmap.mem_iff

theorem running_setManager {w : World σ} {uri : String} (s : σ) (h : w.Running uri)
    (uri' : String) : (w.setManager uri s).Running uri' ↔ w.Running uri' := by
  simp only [Running, setManager, Finmap.mem_insert, or_iff_right_iff_imp]
  rintro rfl
  exact h

theorem managerCall_ok {α : Type} {uri : String} {call : σ → α × σ} {w : World σ}
    {r : α × World σ} :
    managerCall uri call w = .ok r ↔ ∃ s, w.managers.lookup uri = some s ∧
      r = ((call s).1, w.setManager uri (call s).2) := by
  unfold managerCall
  cases w.managers.lookup uri <;> simp [eq_comm]

/-- Calls to running managers come back. -/
theorem managerCall_total {α : Type} {uri : String} {w : World σ} (h : w.Running uri)
    (call : σ → α × σ) : ∃ r, managerCall uri call w = .ok r := by
  obtain ⟨s, hs⟩ := (w.running_iff uri).mp h
  exact ⟨_, managerCall_ok.mpr ⟨s, hs, rfl⟩⟩

variable [StorageInterface σ]

/-- The `Get` that `StorageManager::CopyFrom` sends to `dst_uri`. Its status is
not read, and it does not wait for a server that is not there. -/
def copyFetch (w : World σ) (request : CopyFromRequest) : GetReply × World σ :=
  match w.managers.lookup request.dstUri with
  | some s =>
      let (_, reply, s') := StorageManager.get s { key := request.key }
      (reply, w.setManager request.dstUri s')
  | none => ({}, w)

def managerGet (uri : String) (request : GetRequest) :
    Handler (World σ) (Status × GetReply) :=
  managerCall uri fun s =>
    let (status, reply, s') := StorageManager.get s request
    ((status, reply), s')

def managerPut (uri : String) (request : PutRequest) : Handler (World σ) Status :=
  managerCall uri fun s => StorageManager.put s request

def managerRemove (uri : String) (request : RemoveRequest) : Handler (World σ) Status :=
  managerCall uri fun s => StorageManager.remove s request

def copyFromFetch (uri : String) (request : CopyFromRequest) : Handler (World σ) GetReply :=
  fun w => if w.Running uri then .ok (w.copyFetch request) else .error .undelivered

/-- The rest of `StorageManager::CopyFrom`: store what was fetched. -/
def copyFromStore (uri : String) (request : CopyFromRequest) (reply : GetReply) :
    Handler (World σ) Status :=
  managerCall uri fun s =>
    let (_, s') := StorageInterface.put s request.key reply.value
    (.ok, s')

def managerCopyFrom (uri : String) (request : CopyFromRequest) : Handler (World σ) Status := do
  let reply ← copyFromFetch uri request
  copyFromStore uri request reply

omit [StorageInterface σ] in
def storageChange (request : StorageChangeRequest) : Handler (World σ) Status := fun w =>
  let (status, master) := w.master.storageChange request
  .ok (status, { w with master })

instance : RpcInterfaces (Handler (World σ)) :=
  ⟨managerGet, managerPut, managerRemove, managerCopyFrom, storageChange⟩

section Lawful

variable [LawfulStorage σ]

/-- What the manager at `uri` holds under `key`. -/
def value (w : World σ) : Stores String String String := fun uri key =>
  (w.managers.lookup uri).bind fun s => (LawfulStorage.contents s).lookup key

theorem value_of_lookup {w : World σ} {uri : String} {s : σ}
    (h : w.managers.lookup uri = some s) (key : String) :
    w.value uri key = (LawfulStorage.contents s).lookup key := by
  simp [value, h]

/-- `w'` is `w` after the storage operations `ops`: the managers hold what the
operations leave, the same managers run, and the master has not changed. -/
structure Effect (ops : List (Op String String String)) (w w' : World σ) : Prop where
  value : w'.value = run "" w.value ops
  running : ∀ uri, w'.Running uri ↔ w.Running uri
  master : w'.master = w.master

theorem Effect.refl (w : World σ) : Effect [] w w := ⟨rfl, fun _ => Iff.rfl, rfl⟩

theorem Effect.trans {ops ops' : List (Op String String String)} {w₁ w₂ w₃ : World σ}
    (h : Effect ops w₁ w₂) (h' : Effect ops' w₂ w₃) : Effect (ops ++ ops') w₁ w₃ where
  value := by rw [h'.value, h.value, run_append]
  running uri := (h'.running uri).trans (h.running uri)
  master := h'.master.trans h.master

/-- Replacing a manager's medium by one with the contents that `op` leaves. -/
theorem Effect.of_setManager {w : World σ} {uri : String} {s s' : σ}
    (hs : w.managers.lookup uri = some s) (ops : List (Op String String String))
    (hself : ∀ k, (LawfulStorage.contents s').lookup k = run "" w.value ops uri k)
    (hother : ∀ u k, u ≠ uri → run "" w.value ops u k = w.value u k) :
    Effect ops w (w.setManager uri s') where
  value := by
    funext u k
    by_cases hu : u = uri
    · subst hu
      rw [← hself k]
      simp [World.value, setManager]
    · rw [hother u k hu]
      simp [World.value, setManager, hu]
  running := running_setManager s' ((w.running_iff uri).mpr ⟨s, hs⟩)
  master := rfl

theorem copyFetch_spec (w : World σ) (request : CopyFromRequest) :
    (w.copyFetch request).1 = { value := (w.value request.dstUri request.key).getD "" } ∧
      Effect [] w (w.copyFetch request).2 := by
  unfold copyFetch
  cases h : w.managers.lookup request.dstUri with
  | none => exact ⟨by simp [World.value, h], Effect.refl w⟩
  | some s =>
      refine ⟨?_, Effect.of_setManager h [] ?_ fun _ _ _ => rfl⟩
      · rw [value_of_lookup h, ← StorageManager.get_value s { key := request.key }]
      · intro k
        simp [value_of_lookup h]

theorem managerGet_ok {uri : String} {request : GetRequest} {w : World σ}
    {r : (Status × GetReply) × World σ} (h : managerGet uri request w = .ok r) :
    r.1 = (.ok, { value := (w.value uri request.key).getD "" }) ∧ Effect [] w r.2 := by
  obtain ⟨s, hs, rfl⟩ := managerCall_ok.mp h
  refine ⟨?_, Effect.of_setManager hs [] ?_ fun _ _ _ => rfl⟩
  · rw [value_of_lookup hs, ← StorageManager.get_value s request]
    rfl
  · intro k
    simp [value_of_lookup hs]

theorem managerPut_ok {uri : String} {request : PutRequest} {w : World σ}
    {r : Status × World σ} (h : managerPut uri request w = .ok r) :
    w.Running uri ∧ Effect [.put uri request.key request.value] w r.2 := by
  obtain ⟨s, hs, rfl⟩ := managerCall_ok.mp h
  refine ⟨(w.running_iff uri).mpr ⟨s, hs⟩, Effect.of_setManager hs _ ?_ ?_⟩
  · intro k
    simp [Replicas.apply, Replicas.set, value_of_lookup hs]
  · intro u k hu
    simp [Replicas.apply, Replicas.set, hu]

theorem managerRemove_ok {uri : String} {request : RemoveRequest} {w : World σ}
    {r : Status × World σ} (h : managerRemove uri request w = .ok r) :
    w.Running uri ∧ Effect [.remove uri request.key] w r.2 := by
  obtain ⟨s, hs, rfl⟩ := managerCall_ok.mp h
  refine ⟨(w.running_iff uri).mpr ⟨s, hs⟩, Effect.of_setManager hs _ ?_ ?_⟩
  · intro k
    simp [Replicas.apply, Replicas.set, value_of_lookup hs]
  · intro u k hu
    simp [Replicas.apply, Replicas.set, hu]

theorem copyFromFetch_ok {uri : String} {request : CopyFromRequest} {w : World σ}
    {r : GetReply × World σ} (h : copyFromFetch uri request w = .ok r) :
    w.Running uri ∧ r.1 = { value := (w.value request.dstUri request.key).getD "" } ∧
      Effect [] w r.2 := by
  unfold copyFromFetch at h
  split at h
  · rename_i hrun
    obtain rfl := Except.ok.inj h
    exact ⟨hrun, w.copyFetch_spec request⟩
  · cases h

theorem copyFromStore_ok {uri : String} {request : CopyFromRequest} {reply : GetReply}
    {w : World σ} {r : Status × World σ} (h : copyFromStore uri request reply w = .ok r) :
    r.1 = .ok ∧ Effect [.put uri request.key reply.value] w r.2 := by
  obtain ⟨s, hs, rfl⟩ := managerCall_ok.mp h
  refine ⟨rfl, Effect.of_setManager hs _ ?_ ?_⟩
  · intro k
    simp [Replicas.apply, Replicas.set, value_of_lookup hs]
  · intro u k hu
    simp [Replicas.apply, Replicas.set, hu]

theorem managerCopyFrom_ok {uri : String} {request : CopyFromRequest} {w : World σ}
    {r : Status × World σ} (h : managerCopyFrom uri request w = .ok r) :
    w.Running uri ∧ Effect [.copy uri request.dstUri request.key] w r.2 := by
  obtain ⟨reply, w', hfetched, hstored⟩ := Handler.bind_ok.mp h
  obtain ⟨hrun, hreply, hfetch⟩ := copyFromFetch_ok hfetched
  obtain ⟨_, hstore⟩ := copyFromStore_ok hstored
  have hreply : reply = _ := hreply
  refine ⟨hrun, ?_, fun u => (hstore.running u).trans (hfetch.running u),
    hstore.master.trans hfetch.master⟩
  rw [hstore.value, hfetch.value, hreply]
  rfl

theorem managerCopyFrom_total {uri : String} {w : World σ} (h : w.Running uri)
    (request : CopyFromRequest) : ∃ r, managerCopyFrom uri request w = .ok r := by
  have hfetched : copyFromFetch uri request w = .ok (w.copyFetch request) := if_pos h
  have hrun : (w.copyFetch request).2.Running uri :=
    ((copyFromFetch_ok hfetched).2.2.running uri).mpr h
  obtain ⟨r, hr⟩ := managerCall_total hrun fun s : σ =>
    (Status.ok, (StorageInterface.put s request.key (w.copyFetch request).1.value).2)
  exact ⟨r, Handler.bind_ok.mpr ⟨_, _, hfetched, hr⟩⟩

end Lawful

/-! ## A world with two managers -/

namespace TwoManagers

/-- Two managers; the first holds `v` under `k`. -/
def twoManagers : World MapStorage where
  managers := ((∅ : UMap String MapStorage).insert "n1:1" { db := AList.singleton "k" "v" }).insert
    "n2:1" {}

def first : Manager := ⟨"manager:EPHEMERAL:MANAGED:n1", "n1:1"⟩
def second : Manager := ⟨"manager:EPHEMERAL:MANAGED:n2", "n2:1"⟩

theorem twoManagers_value (uri key : String) :
    twoManagers.value uri key = if uri = "n1:1" ∧ key = "k" then some "v" else none := by
  by_cases h2 : uri = "n2:1"
  · subst h2
    simp [value, twoManagers, LawfulStorage.contents]
  · by_cases h1 : uri = "n1:1"
    · subst h1
      by_cases hk : key = "k"
      · subst hk
        simp [value, twoManagers, LawfulStorage.contents, AList.lookup]
      · simp [value, twoManagers, LawfulStorage.contents, AList.lookup, hk]
    · simp [value, twoManagers, h1, h2]

end TwoManagers

end World

end ProgrammableCaching
