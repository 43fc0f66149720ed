import Mathlib.Data.Option.Basic
import ProgrammableCaching.Library.Lockstep
import ProgrammableCaching.ConcurrentMaster
import ProgrammableCaching.FaultyThreads
import ProgrammableCaching.StorageBackends
import ProgrammableCaching.System

/-! Two services over different storage media. The managers, the clients and the master see the
values of a medium, its keys in some order and the storage it calls itself, and no status, so
services over media that agree in these cannot be told apart. -/

namespace ProgrammableCaching

open UnorderedMap Runs Pools Lockstep

/-! ## Media -/

/-- Related media give out the same, as far as a manager looks, and stay related. -/
structure Interchange {σ τ : Type} [StorageInterface σ] [StorageInterface τ]
    (M : σ → τ → Prop) : Prop where
  value : ∀ s t key value, M s t →
    (StorageInterface.get s key value).2.1 = (StorageInterface.get t key value).2.1
  get : ∀ s t key value, M s t →
    M (StorageInterface.get s key value).2.2 (StorageInterface.get t key value).2.2
  put : ∀ s t key value, M s t →
    M (StorageInterface.put s key value).2 (StorageInterface.put t key value).2
  remove : ∀ s t key, M s t →
    M (StorageInterface.remove s key).2 (StorageInterface.remove t key).2
  keys : ∀ s t, M s t →
    (StorageInterface.getAllKeys s []).2.1.Perm (StorageInterface.getAllKeys t []).2.1
  getAllKeys : ∀ s t, M s t →
    M (StorageInterface.getAllKeys s []).2.2 (StorageInterface.getAllKeys t []).2.2

section Media

variable {σ τ : Type} [StorageInterface σ] [StorageInterface τ] {M : σ → τ → Prop}

/-- A fault strikes both media in the same way. -/
theorem Interchange.struck (h : Interchange M) (f : Fault) :
    @Interchange (Struck f σ) (Struck f τ) _ _ M := by
  obtain ⟨delivery, fetchLost, readError, writeError⟩ := f
  refine ⟨?_, ?_, ?_, ?_, h.keys, h.getAllKeys⟩
  case refine_1 =>
    intro s t key value hst
    cases readError with
    | none => exact h.value s t key value hst
    | some junk => rfl
  case refine_2 =>
    intro s t key value hst
    cases readError with
    | none => exact h.get s t key value hst
    | some junk => exact hst
  case refine_3 =>
    intro s t key value hst
    cases writeError with
    | false => exact h.put s t key value hst
    | true => exact hst
  case refine_4 =>
    intro s t key hst
    cases writeError with
    | false => exact h.remove s t key hst
    | true => exact hst

end Media

section Lawful

variable {σ τ : Type} [StorageInterface σ] [LawfulStorage σ] [StorageInterface τ]
  [LawfulStorage τ]

/-- The media hold the same. -/
def SameContents (s : σ) (t : τ) : Prop := LawfulStorage.contents s = LawfulStorage.contents t

/-- Media that never fail can be told apart by their contents only. -/
theorem interchange_sameContents : Interchange (SameContents (σ := σ) (τ := τ)) where
  value s t key value hst := by
    cases hlookup : (LawfulStorage.contents s).lookup key with
    | none =>
        rw [(LawfulStorage.get_miss s key value hlookup).2,
          (LawfulStorage.get_miss t key value (hst ▸ hlookup)).2]
    | some v =>
        rw [(LawfulStorage.get_hit s key value v hlookup).2,
          (LawfulStorage.get_hit t key value v (hst ▸ hlookup)).2]
  get s t key value hst := by simpa [SameContents] using hst
  put s t key value hst := by
    rw [SameContents, LawfulStorage.contents_put, LawfulStorage.contents_put, hst]
  remove s t key hst := by
    rw [SameContents, LawfulStorage.contents_remove, LawfulStorage.contents_remove, hst]
  keys s t hst := by
    obtain ⟨_, order, horder, hkeys⟩ := LawfulStorage.getAllKeys_spec s []
    obtain ⟨_, order', horder', hkeys'⟩ := LawfulStorage.getAllKeys_spec t []
    rw [hkeys, hkeys', List.nil_append, List.nil_append,
      List.perm_ext_iff_of_nodup horder.1 horder'.1]
    intro key
    rw [horder.2, horder'.2, hst]
  getAllKeys s t hst := by simpa [SameContents] using hst

end Lawful

section Redis

variable {ρ θ : Type} [RedisServer ρ] [LawfulRedisServer ρ] [RedisServer θ]
  [LawfulRedisServer θ]

/-- The servers hold the same keys, under any values. -/
def SameKeys (i : RedisInterface ρ) (j : RedisInterface θ) : Prop :=
  ∀ key, key ∈ LawfulRedisServer.contents i.context ↔ key ∈ LawfulRedisServer.contents j.context

/-- The redis interface lets no value through. -/
theorem interchange_sameKeys : Interchange (SameKeys (ρ := ρ) (θ := θ)) where
  value i j key value _ := rfl
  get i j key value hij key' := by
    simpa only [StorageInterface.get, LawfulRedisServer.contents_get] using hij key'
  put i j key value hij key' := by
    simp only [StorageInterface.put, LawfulRedisServer.contents_set, Finmap.mem_insert, hij key']
  remove i j key hij key' := by
    simp only [StorageInterface.remove, LawfulRedisServer.contents_del, Finmap.mem_erase,
      hij key']
  keys i j hij := by
    obtain ⟨order, horder, hreply⟩ := LawfulRedisServer.keys_reply i.context
    obtain ⟨order', horder', hreply'⟩ := LawfulRedisServer.keys_reply j.context
    simp only [StorageInterface.getAllKeys, hreply, hreply', RedisReply.element, List.nil_append]
    refine ((List.perm_ext_iff_of_nodup horder.1 horder'.1).mpr fun key => ?_).map cStr
    rw [horder.2, horder'.2, hij key]
  getAllKeys i j hij key := by
    simpa only [StorageInterface.getAllKeys, LawfulRedisServer.contents_keys] using hij key

end Redis

/-! ## Worlds -/

namespace World

variable {σ τ : Type} {M : σ → τ → Prop} {w : World σ} {u : World τ} {uri : String}

/-- The same managers run, over related media, and the master is the same. -/
structure Related (M : σ → τ → Prop) (w : World σ) (u : World τ) : Prop where
  managers : ∀ uri, Option.Rel M (w.managers.lookup uri) (u.managers.lookup uri)
  master : w.master = u.master

theorem Related.running_iff (h : w.Related M u) (uri : String) :
    w.Running uri ↔ u.Running uri := by
  rw [World.running_iff, World.running_iff]
  have hmanagers := h.managers uri
  generalize w.managers.lookup uri = s, u.managers.lookup uri = t at hmanagers
  cases hmanagers <;> simp

theorem Related.setManager (h : w.Related M u) {s : σ} {t : τ} (hst : M s t) :
    (w.setManager uri s).Related M (u.setManager uri t) where
  managers uri' := by
    simp only [World.setManager, lookup_insert_ite]
    split
    · exact .some hst
    · exact h.managers uri'
  master := h.master

theorem sameAnswer_managerCall {α : Type} {call : σ → α × σ} {call' : τ → α × τ}
    (h : w.Related M u)
    (hcall : ∀ s t, M s t → (call s).1 = (call' t).1 ∧ M (call s).2 (call' t).2) :
    SameAnswer (Related M) (managerCall uri call w) (managerCall uri call' u) := by
  unfold managerCall
  have hmanagers := h.managers uri
  generalize w.managers.lookup uri = s, u.managers.lookup uri = t at hmanagers
  cases hmanagers with
  | none => exact .error _
  | some hst =>
      obtain ⟨hanswer, hst'⟩ := hcall _ _ hst
      simp only [hanswer]
      exact .ok (h.setManager hst')

end World

namespace Rpc

variable {σ τ : Type} [StorageInterface σ] [StorageInterface τ] {M : σ → τ → Prop}
  {w : World σ} {u : World τ} {α β : Type}

/-- The `Get` that a copy sends. -/
theorem copyFetch_related (hM : Interchange M) (h : w.Related M u) (request : CopyFromRequest) :
    (w.copyFetch request).1 = (u.copyFetch request).1 ∧
      (w.copyFetch request).2.Related M (u.copyFetch request).2 := by
  have hmanagers := h.managers request.dstUri
  unfold World.copyFetch
  generalize w.managers.lookup request.dstUri = s, u.managers.lookup request.dstUri = t
    at hmanagers
  cases hmanagers with
  | none => exact ⟨rfl, h⟩
  | some hst =>
      exact ⟨congrArg GetReply.mk (hM.value _ _ request.key "" hst),
        h.setManager (hM.get _ _ request.key "" hst)⟩

theorem sameAnswer_handle (hM : Interchange M) (h : w.Related M u) (c : Rpc β) :
    SameAnswer (World.Related M) (handle c w) (handle c u) := by
  cases c with
  | managerGet uri request =>
      simp only [handle, World.managerGet]
      exact World.sameAnswer_managerCall h fun s t hst =>
        ⟨congrArg (fun v => (Status.ok, GetReply.mk v)) (hM.value s t request.key "" hst),
          hM.get s t request.key "" hst⟩
  | managerPut uri request =>
      simp only [handle, World.managerPut]
      exact World.sameAnswer_managerCall h fun s t hst =>
        ⟨rfl, hM.put s t request.key request.value hst⟩
  | managerRemove uri request =>
      simp only [handle, World.managerRemove]
      exact World.sameAnswer_managerCall h fun s t hst => ⟨rfl, hM.remove s t request.key hst⟩
  | copyFromFetch uri request =>
      obtain ⟨hreply, hrelated⟩ := copyFetch_related hM h request
      have hrunning := h.running_iff uri
      simp only [handle, World.copyFromFetch]
      by_cases hw : w.Running uri
      · rw [if_pos hw, if_pos (hrunning.mp hw)]
        rw [← Prod.mk.eta (p := w.copyFetch request), hreply]
        exact .ok hrelated
      · rw [if_neg hw, if_neg (mt hrunning.mpr hw)]
        exact .error _
  | copyFromStore uri request reply =>
      simp only [handle, World.copyFromStore]
      exact World.sameAnswer_managerCall h fun s t hst =>
        ⟨rfl, hM.put s t request.key reply.value hst⟩
  | storageChange request =>
      simp only [handle, World.storageChange, h.master]
      exact .ok ⟨h.managers, rfl⟩

omit [StorageInterface σ] [StorageInterface τ] in
theorem sameAnswer_deliver {d : Delivery} {failed : α} {call : Handler (World σ) α}
    {call' : Handler (World τ) α} (h : w.Related M u)
    (hcall : SameAnswer (World.Related M) (call w) (call' u)) :
    SameAnswer (World.Related M) (deliver d failed call w) (deliver d failed call' u) := by
  unfold deliver
  generalize call w = x, call' u = y at hcall
  cases hcall with
  | error e => exact .error e
  | ok hcall =>
      cases d with
      | delivered => exact .ok hcall
      | requestLost => exact .ok h
      | replyLost => exact .ok hcall

/-- A call that goes wrong in the same way gets the same answer. -/
theorem sameAnswer_faulty (hM : Interchange M) (h : w.Related M u) (f : Fault) (c : Rpc β) :
    SameAnswer (World.Related M) (faulty f c w) (faulty f c u) := by
  have hstruck : ∀ {γ : Type} (c : Rpc γ), SameAnswer (World.Related M)
      (handle (σ := Struck f σ) c w) (handle (σ := Struck f τ) c u) :=
    fun c => sameAnswer_handle (σ := Struck f σ) (τ := Struck f τ) (hM.struck f) h c
  cases c with
  | managerGet uri request => exact sameAnswer_deliver h (hstruck (.managerGet uri request))
  | managerPut uri request => exact sameAnswer_deliver h (hstruck (.managerPut uri request))
  | managerRemove uri request =>
      exact sameAnswer_deliver h (hstruck (.managerRemove uri request))
  | copyFromFetch uri request =>
      exact sameAnswer_deliver h (hstruck (.copyFromFetch uri request))
  | copyFromStore uri request reply =>
      exact sameAnswer_deliver h (hstruck (.copyFromStore uri request reply))
  | storageChange request => exact sameAnswer_deliver h (hstruck (.storageChange request))

theorem faultyServe_related (hM : Interchange M) (h : w.Related M u) {c : Rpc β} {l : CallSeen}
    {b : β} {w' : World σ} (hserve : FaultyServe c w l b w') :
    ∃ u', FaultyServe c u l b u' ∧ w'.Related M u' := by
  obtain ⟨f, rfl, hok⟩ := hserve
  have hsame := sameAnswer_faulty hM h f c
  rw [hok] at hsame
  obtain ⟨u', hok', hrelated⟩ := hsame.exists_right
  exact ⟨u', ⟨f, rfl, hok'⟩, hrelated⟩

end Rpc

/-! ## Starting managers -/

theorem StorageFileView.addFiles_perm {keys keys' : List String} (h : keys.Perm keys')
    (v : StorageFileView) (name : String) :
    keys.foldl (fun v key => v.addFileToManager name key) v =
      keys'.foldl (fun v key => v.addFileToManager name key) v := by
  refine h.foldl_eq' (fun key _ key' _ v => ?_) v
  simp only [addFileToManager, modify_modify, ManagerFileView.addFile_comm]

/-- The master does not mind in which order a manager lists its keys. -/
theorem StorageMaster.introduce_perm {keys : List String} {i : StorageManagerIntroduce}
    (h : i.file.Perm keys) (m : StorageMaster) (peer : String) :
    m.introduce peer (.storageManager { i with file := keys }) =
      m.introduce peer (.storageManager i) := by
  have hname : generateName (.storageManager { i with file := keys }) =
      generateName (.storageManager i) := rfl
  simp only [introduce, hname, StorageFileView.addFiles_perm h]

/-- A manager that starts over one medium or over the other. -/
structure StartsAlike {σ τ : Type} [StorageInterface σ] [StorageInterface τ] (M : σ → τ → Prop)
    (s : σ) (t : τ) : Prop where
  related : M s t
  storageType : StorageInterface.getStorageType s = StorageInterface.getStorageType t
  storageName : StorageInterface.getStorageName s = StorageInterface.getStorageName t

section Start

variable {σ τ : Type} [StorageInterface σ] [StorageInterface τ] {M : σ → τ → Prop}
  {w : World σ} {u : World τ} {peer hostname port : String}

theorem related_startManager (hM : Interchange M) (h : w.Related M u) {s : σ} {t : τ}
    (hst : StartsAlike M s t) :
    (({ world := w } : System σ).startManager peer hostname port s).world.Related M
      (({ world := u } : System τ).startManager peer hostname port t).world := by
  have hrequest : (StorageManager.startRequest t hostname port).1 =
      { (StorageManager.startRequest s hostname port).1 with
        file := (StorageManager.startRequest t hostname port).1.file } := by
    simp [StorageManager.startRequest, hst.storageType, hst.storageName]
  have hperm : (StorageManager.startRequest s hostname port).1.file.Perm
      (StorageManager.startRequest t hostname port).1.file := hM.keys s t hst.related
  constructor
  · exact (h.setManager (hM.getAllKeys s t hst.related)).managers
  · have hmaster := StorageMaster.introduce_perm hperm w.master peer
    rw [← hrequest] at hmaster
    simp only [System.startManager, h.master] at hmaster ⊢
    rw [hmaster]

omit [StorageInterface σ] [StorageInterface τ] in
theorem related_startClient (h : w.Related M u) :
    (({ world := w } : System σ).startClient peer hostname port).world.Related M
      (({ world := u } : System τ).startClient peer hostname port).world := by
  refine ⟨h.managers, ?_⟩
  simp only [System.startClient, System.setRules_world, h.master]

end Start

/-! ## Runs -/

/-- A server starts, a request arrives at a client, or a handler of a client makes a call. -/
inductive TrafficEvent (σ : Type)
  | startManager (peer hostname port : String) (storage : σ)
  | startClient (peer hostname port : String)
  | client (e : Pools.Event RequestThread CallSeen)

/-- The same event in services over different media. -/
inductive TrafficEvent.Alike {σ τ : Type} [StorageInterface σ] [StorageInterface τ]
    (M : σ → τ → Prop) : TrafficEvent σ → TrafficEvent τ → Prop
  | startManager {peer hostname port : String} {s : σ} {t : τ} : StartsAlike M s t →
      Alike M (.startManager peer hostname port s) (.startManager peer hostname port t)
  | startClient {peer hostname port : String} :
      Alike M (.startClient peer hostname port) (.startClient peer hostname port)
  | client (e : Pools.Event RequestThread CallSeen) : Alike M (.client e) (.client e)

/-- Servers start while clients handle requests under rules in `allowed`. -/
inductive TrafficStep {σ : Type} [StorageInterface σ] (allowed : RuleDb → Prop) :
    Pool (World σ) RequestThread → TrafficEvent σ → Pool (World σ) RequestThread → Prop
  | startManager {w : World σ} {ts : List RequestThread} {peer hostname port : String}
      {storage : σ} : TrafficStep allowed ⟨w, ts⟩ (.startManager peer hostname port storage)
        ⟨(({ world := w } : System σ).startManager peer hostname port storage).world, ts⟩
  | startClient {w : World σ} {ts : List RequestThread} {peer hostname port : String} :
      TrafficStep allowed ⟨w, ts⟩ (.startClient peer hostname port)
        ⟨(({ world := w } : System σ).startClient peer hostname port).world, ts⟩
  | client {P P' : Pool (World σ) RequestThread} {e : Pools.Event RequestThread CallSeen} :
      FaultyStep allowed P e P' → TrafficStep allowed P (.client e) P'

section Runs

variable {σ τ : Type} {allowed : RuleDb → Prop}

/-- The threads are the same, over related worlds. -/
def PoolsRelated (M : σ → τ → Prop) (A : Pool (World σ) RequestThread)
    (B : Pool (World τ) RequestThread) : Prop :=
  A.state.Related M B.state ∧ A.threads = B.threads

theorem trafficStep_related [StorageInterface σ] [StorageInterface τ] {M : σ → τ → Prop}
    (hM : Interchange M) {A A' : Pool (World σ) RequestThread} {B : Pool (World τ) RequestThread}
    {e : TrafficEvent σ} {e' : TrafficEvent τ} (h : PoolsRelated M A B) (he : e.Alike M e')
    (hstep : TrafficStep allowed A e A') :
    ∃ B', TrafficStep allowed B e' B' ∧ PoolsRelated M A' B' := by
  obtain ⟨w, ts⟩ := A
  obtain ⟨u, ts'⟩ := B
  obtain ⟨hworld, hthreads⟩ := h
  obtain rfl : ts = ts' := hthreads
  cases he with
  | startManager hst =>
      cases hstep
      exact ⟨_, .startManager, related_startManager hM hworld hst, rfl⟩
  | startClient =>
      cases hstep
      exact ⟨_, .startClient, related_startClient hworld, rfl⟩
  | client e =>
      have hcall : ∀ (w : World σ) (u : World τ) (p : RequestThread) l w' p', w.Related M u →
          Contracts.CallStep FaultyServe w p l w' p' →
            ∃ u', Contracts.CallStep FaultyServe u p l u' p' ∧ w'.Related M u' := by
        intro w u p l w' p' hR
        have hserve : ∀ {β : Type} (c : Rpc β) (w : World σ) (u : World τ) l b w', w.Related M u →
            FaultyServe c w l b w' → ∃ u', FaultyServe c u l b u' ∧ w'.Related M u' :=
          fun _ _ _ _ _ _ hR hserve => Rpc.faultyServe_related hM hR hserve
        exact callStep_of_related hserve hR
      cases hstep with
      | client hstep =>
          obtain ⟨u', hstep', hrelated⟩ := poolStep_of_related hcall hworld hstep
          exact ⟨_, .client hstep', hrelated, rfl⟩

/-- Services over related media can do the same. -/
theorem reaches_of_interchange [StorageInterface σ] [StorageInterface τ] {M : σ → τ → Prop}
    (hM : Interchange M) {w : World σ} {u : World τ} (h : w.Related M u)
    {es : List (TrafficEvent σ)} {fs : List (TrafficEvent τ)}
    (hes : List.Forall₂ (TrafficEvent.Alike M) es fs)
    {P : Pool (World σ) RequestThread} (hrun : Reaches (TrafficStep allowed) ⟨w, []⟩ es P) :
    ∃ u', Reaches (TrafficStep allowed) ⟨u, []⟩ fs ⟨u', P.threads⟩ ∧ P.state.Related M u' := by
  have hstep : ∀ (A : Pool (World σ) RequestThread) (B : Pool (World τ) RequestThread) e e' A',
      PoolsRelated M A B → TrafficEvent.Alike M e e' → TrafficStep allowed A e A' →
        ∃ B', TrafficStep allowed B e' B' ∧ PoolsRelated M A' B' :=
    fun _ _ _ _ _ => trafficStep_related hM
  have hstart : PoolsRelated M (⟨w, []⟩ : Pool (World σ) RequestThread) ⟨u, []⟩ := ⟨h, rfl⟩
  obtain ⟨⟨u', ts⟩, hreaches, hrelated, hthreads⟩ := reaches_of_related hstep hes hstart hrun
  have hthreads : P.threads = ts := hthreads
  rw [hthreads]
  exact ⟨u', hreaches, hrelated⟩

/-- **Storage media cannot be told apart.** Let two services run over storage media of any two kinds
that never fail on their own, the same managers over media with the same contents, with the same
master. Whatever happens in one of them, managers with the same contents, type and name being
started in both, requests being handled at the same time under any rules, and calls going wrong, can
happen in the other: every call gets the same answer, every request the same reply, and in the end
the managers hold the same and the master is the same. -/
theorem media_indistinguishable [StorageInterface σ] [LawfulStorage σ] [StorageInterface τ]
    [LawfulStorage τ] {w : World σ} {u : World τ} (h : w.Related SameContents u)
    {es : List (TrafficEvent σ)} {fs : List (TrafficEvent τ)}
    (hes : List.Forall₂ (TrafficEvent.Alike SameContents) es fs)
    {P : Pool (World σ) RequestThread} (hrun : Reaches (TrafficStep allowed) ⟨w, []⟩ es P) :
    ∃ u', Reaches (TrafficStep allowed) ⟨u, []⟩ fs ⟨u', P.threads⟩ ∧
      P.state.Related SameContents u' :=
  reaches_of_interchange interchange_sameContents h hes hrun

/-- **Over redis, values do not matter.** Two services over redis servers that never fail and hold
the same keys, under values as different as they may be, can do the same: what is stored under a key
never comes back to a client, nor does it get from one manager to another. -/
theorem redis_values_unseen {ρ θ : Type} [RedisServer ρ] [LawfulRedisServer ρ] [RedisServer θ]
    [LawfulRedisServer θ] {w : World (RedisInterface ρ)} {u : World (RedisInterface θ)}
    (h : w.Related SameKeys u) {es : List (TrafficEvent (RedisInterface ρ))}
    {fs : List (TrafficEvent (RedisInterface θ))}
    (hes : List.Forall₂ (TrafficEvent.Alike SameKeys) es fs)
    {P : Pool (World (RedisInterface ρ)) RequestThread}
    (hrun : Reaches (TrafficStep allowed) ⟨w, []⟩ es P) :
    ∃ u', Reaches (TrafficStep allowed) ⟨u, []⟩ fs ⟨u', P.threads⟩ ∧
      P.state.Related SameKeys u' :=
  reaches_of_interchange interchange_sameKeys h hes hrun

section Example

open World.TwoManagers

def storedInMemory : MapStorage := { db := (AList.singleton "k" "v").insert "l" "x" }

/-- The same contents, with the keys listed the other way round. -/
def storedInRocksDb : RocksDbStorageInterface StorageCall.MemoryDb :=
  ⟨{ db := (AList.singleton "l" "x").insert "k" "v" }⟩

theorem startsAlike_stored : StartsAlike SameContents storedInMemory storedInRocksDb where
  related := by
    change AList.toFinmap _ = AList.toFinmap _
    decide
  storageType := rfl
  storageName := rfl

/-- Two managers start, and a copy from the first to the second goes wrong; `storage` is the medium
of the first and `blank` that of the second. -/
def startAndCopy {σ : Type} (storage blank : σ) : List (TrafficEvent σ) :=
  .startManager "p1" "n1" "1" storage :: .startManager "p2" "n2" "1" blank ::
    lostCopy.map .client

theorem alike_startAndCopy : List.Forall₂ (TrafficEvent.Alike SameContents)
    (startAndCopy storedInMemory {}) (startAndCopy storedInRocksDb ⟨{}⟩) := by
  refine .cons (.startManager startsAlike_stored) (.cons (.startManager ⟨rfl, rfl, rfl⟩) ?_)
  rw [List.forall₂_map_left_iff, List.forall₂_map_right_iff, List.forall₂_same]
  exact fun e _ => .client e

theorem reaches_startAndCopy : ∃ P, Reaches (TrafficStep fun _ => True) ⟨{}, []⟩
    (startAndCopy storedInMemory {}) P ∧ P.threads[0]? = some (.done (some ("k", {}))) := by
  refine ⟨_, .cons .startManager (.cons .startManager
    (.cons (.client (.spawn (.get _ trivial)))
    (.cons (.client (faulty_step 0 { fetchLost := true } rfl rfl))
    (.cons (.client (faulty_step 0 {} rfl rfl)) (.cons (.client (faulty_step 0 {} rfl rfl))
    (.cons (.client (faulty_step 0 {} rfl rfl)) .nil)))))), ?_⟩
  rfl

theorem media_indistinguishable_startAndCopy :
    ∃ u', Reaches (TrafficStep fun _ => True) ⟨{}, []⟩ (startAndCopy storedInRocksDb ⟨{}⟩) u' ∧
      u'.threads[0]? = some (.done (some ("k", {}))) := by
  have hempty : World.Related SameContents ({} : World MapStorage)
      ({} : World (RocksDbStorageInterface StorageCall.MemoryDb)) := ⟨fun _ => .none, rfl⟩
  obtain ⟨P, hP, hreply⟩ := reaches_startAndCopy
  obtain ⟨u', hreaches, _⟩ := media_indistinguishable hempty alike_startAndCopy hP
  exact ⟨_, hreaches, hreply⟩

def inRedis (value : String) : RedisInterface StorageCall.MemoryDb :=
  ⟨{ db := AList.singleton "k" value }⟩

theorem startsAlike_inRedis (value value' : String) :
    StartsAlike SameKeys (inRedis value) (inRedis value') where
  related key := by
    change key ∈ AList.toFinmap _ ↔ key ∈ AList.toFinmap _
    simp [inRedis, AList.singleton]
  storageType := rfl
  storageName := rfl

/-- A client reads the key; what comes back is empty. -/
def startAndRead (value : String) : List (TrafficEvent (RedisInterface StorageCall.MemoryDb)) :=
  .startManager "p1" "n1" "1" (inRedis value) ::
    [.spawn (StorageClient.getThread (RuleDb.addRule {} ⟨.get, "k", [.get ⟨"k", first⟩]⟩) ⟨"k"⟩),
      .step 0 ⟨_, .storageChange ⟨[]⟩, {}, .ok⟩,
      .step 0 ⟨_, .managerGet first.uri ⟨"k"⟩, {}, (.ok, {})⟩].map .client

theorem reaches_startAndRead : ∃ P, Reaches (TrafficStep fun _ => True) ⟨{}, []⟩
    (startAndRead "v") P ∧ P.threads[0]? = some (.done (some ("k", {}))) := by
  refine ⟨_, .cons .startManager (.cons (.client (.spawn (.get _ trivial)))
    (.cons (.client (faulty_step 0 {} rfl rfl)) (.cons (.client (faulty_step 0 {} rfl rfl))
    .nil))), ?_⟩
  rfl

theorem redis_values_unseen_startAndRead :
    ∃ u', Reaches (TrafficStep fun _ => True) ⟨{}, []⟩ (startAndRead "x") u' ∧
      u'.threads[0]? = some (.done (some ("k", {}))) := by
  have hempty : World.Related SameKeys ({} : World (RedisInterface StorageCall.MemoryDb))
      ({} : World (RedisInterface StorageCall.MemoryDb)) := ⟨fun _ => .none, rfl⟩
  have halike : List.Forall₂ (TrafficEvent.Alike SameKeys) (startAndRead "v")
      (startAndRead "x") := by
    refine .cons (.startManager (startsAlike_inRedis "v" "x")) ?_
    rw [List.forall₂_map_left_iff, List.forall₂_map_right_iff, List.forall₂_same]
    exact fun e _ => .client e
  obtain ⟨P, hP, hreply⟩ := reaches_startAndRead
  obtain ⟨u', hreaches, _⟩ := redis_values_unseen hempty halike hP
  exact ⟨_, hreaches, hreply⟩

end Example

end Runs

end ProgrammableCaching
