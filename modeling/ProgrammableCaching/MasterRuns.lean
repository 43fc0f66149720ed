import ProgrammableCaching.Library.Runs
import ProgrammableCaching.StorageMaster

/-! Runs of the storage master over the requests that change its state, and
which names its two tables come to know. -/

namespace ProgrammableCaching

open UnorderedMap Runs

/-- The requests that change the state of the master. -/
inductive MasterRequest
  | introduce (peer : String) (request : IntroduceRequest)
  | storageChange (request : StorageChangeRequest)
  deriving DecidableEq, Repr

/-- The managers whose view `StorageChange` accesses for an action. -/
def Action.changedManagers : Action → List String
  | .copyFrom a => [a.srcMgr.name, a.dstMgr.name]
  | .remove a => [a.mgr.name]
  | .put a => [a.mgr.name]
  | .get _ | .notSet => []

/-- The address that the introduction gives its name. -/
def IntroduceRequest.address : IntroduceRequest → Option String
  | .storageManager i => some (StorageMaster.rpcUri i.rpcHostname i.rpcPort)
  | .storageClient i => some (StorageMaster.rpcUri i.rpcHostname i.rpcPort)
  | .notSet => none

namespace MasterRequest

/-- The name under which a manager introduces itself. -/
def introducedManager : MasterRequest → Option String
  | .introduce _ (.storageManager i) => some (StorageMaster.generateName (.storageManager i))
  | _ => none

/-- The name under which a manager or a client introduces itself. -/
def introducedName : MasterRequest → Option String
  | .introduce _ (.storageManager i) => some (StorageMaster.generateName (.storageManager i))
  | .introduce _ (.storageClient i) => some (StorageMaster.generateName (.storageClient i))
  | _ => none

/-- The address that the request gives the peer called `name`. -/
def address (name : String) : MasterRequest → Option String
  | .introduce _ request =>
      if StorageMaster.generateName request = name then request.address else none
  | .storageChange _ => none

def actions : MasterRequest → List Action
  | .storageChange request => request.storageChange
  | .introduce _ _ => []

/-- The names of the managers that the put, remove and copy actions of a
request are about. -/
def changedNames (e : MasterRequest) : List String :=
  e.actions.flatMap Action.changedManagers

theorem introducedName_of_manager {e : MasterRequest} {name : String}
    (h : e.introducedManager = some name) : e.introducedName = some name := by
  cases e with
  | storageChange => cases h
  | introduce peer request =>
      cases request with
      | storageManager i => exact h
      | storageClient => cases h
      | notSet => cases h

end MasterRequest

namespace StorageMaster

def handle (m : StorageMaster) : MasterRequest → StorageMaster
  | .introduce peer request => (m.introduce peer request).2.2
  | .storageChange request => (m.storageChange request).2

/-- The master after the requests, handled one at a time. -/
def run (m : StorageMaster) (es : List MasterRequest) : StorageMaster := es.foldl handle m

@[simp] theorem run_nil (m : StorageMaster) : m.run [] = m := rfl

@[simp] theorem run_cons (m : StorageMaster) (e : MasterRequest) (es : List MasterRequest) :
    m.run (e :: es) = (m.handle e).run es := rfl

theorem run_snoc (m : StorageMaster) (es : List MasterRequest) (e : MasterRequest) :
    m.run (es ++ [e]) = (m.run es).handle e := by
  simp [run]

/-- Only an introduction under its name changes the address of a peer. -/
theorem uriOf_handle (m : StorageMaster) (e : MasterRequest) (name : String) :
    (m.handle e).peerTracker.uriOf name = (e.address name).getD (m.peerTracker.uriOf name) := by
  cases e with
  | storageChange request => rfl
  | introduce peer request =>
      cases request with
      | notSet => simp [handle, introduce, MasterRequest.address, IntroduceRequest.address]
      | storageManager i =>
          by_cases h : generateName (.storageManager i) = name
          · simp [handle, introduce, PeerTracker.uriOf, PeerTracker.addPeer,
              MasterRequest.address, IntroduceRequest.address, h]
          · simp [handle, introduce, PeerTracker.uriOf, PeerTracker.addPeer,
              MasterRequest.address, h, Ne.symm h]
      | storageClient i =>
          by_cases h : generateName (.storageClient i) = name
          · simp [handle, introduce, PeerTracker.uriOf, PeerTracker.addPeer,
              MasterRequest.address, IntroduceRequest.address, h]
          · simp [handle, introduce, PeerTracker.uriOf, PeerTracker.addPeer,
              MasterRequest.address, h, Ne.symm h]

/-! ## Single requests -/

theorem mem_foldl_addFile (name : String) (keys : List String) (v : StorageFileView)
    (hname : name ∈ v.managerViews) (name' : String) :
    name' ∈ (keys.foldl (fun v key => v.addFileToManager name key) v).managerViews ↔
      name' ∈ v.managerViews := by
  induction keys generalizing v with
  | nil => rfl
  | cons key keys ih =>
      rw [List.foldl_cons, ih _ (by simp [hname])]
      simp only [StorageFileView.mem_addFileToManager, or_iff_right_iff_imp]
      rintro rfl
      exact hname

theorem lists_foldl_addFile (name : String) (keys : List String) (v : StorageFileView)
    (name' key' : String) :
    (keys.foldl (fun v key => v.addFileToManager name key) v).Lists name' key' ↔
      (name' = name ∧ key' ∈ keys) ∨ v.Lists name' key' := by
  induction keys generalizing v with
  | nil => simp
  | cons key keys ih =>
      rw [List.foldl_cons, ih]
      simp only [StorageFileView.lists_addFileToManager, List.mem_cons]
      tauto

theorem changeView_mem (v : StorageFileView) (a : Action) (name : String) :
    name ∈ (changeView v a).managerViews ↔ name ∈ a.changedManagers ∨ name ∈ v.managerViews := by
  cases a <;> simp [changeView, Action.changedManagers, or_assoc, or_left_comm]

theorem mem_foldl_changeView (actions : List Action) (v : StorageFileView) (name : String) :
    name ∈ (actions.foldl changeView v).managerViews ↔
      name ∈ actions.flatMap Action.changedManagers ∨ name ∈ v.managerViews := by
  induction actions generalizing v with
  | nil => simp
  | cons a actions ih =>
      rw [List.foldl_cons, ih, changeView_mem, List.flatMap_cons, List.mem_append]
      tauto

/-- The managers that the view has an entry for after a request. -/
theorem mem_handle (m : StorageMaster) (e : MasterRequest) (name : String) :
    name ∈ (m.handle e).fileView.managerViews ↔
      e.introducedManager = some name ∨ name ∈ e.changedNames ∨
        name ∈ m.fileView.managerViews := by
  cases e with
  | storageChange request =>
      simp [handle, storageChange, mem_foldl_changeView, MasterRequest.introducedManager,
        MasterRequest.changedNames, MasterRequest.actions]
  | introduce peer request =>
      cases request with
      | storageClient i =>
          simp [handle, introduce, MasterRequest.introducedManager, MasterRequest.changedNames,
            MasterRequest.actions]
      | notSet =>
          simp [handle, introduce, MasterRequest.introducedManager, MasterRequest.changedNames,
            MasterRequest.actions]
      | storageManager i =>
          simp only [handle, introduce]
          rw [mem_foldl_addFile _ _ _ (by simp)]
          simp [MasterRequest.introducedManager, MasterRequest.changedNames,
            MasterRequest.actions, eq_comm]

/-- The names that the peer table knows after a request. -/
theorem tracked_handle (m : StorageMaster) (e : MasterRequest) (name : String) :
    (m.handle e).peerTracker.Tracked name ↔
      e.introducedName = some name ∨ m.peerTracker.Tracked name := by
  cases e with
  | storageChange request => simp [handle, storageChange, MasterRequest.introducedName]
  | introduce peer request =>
      cases request with
      | storageManager i =>
          simp [handle, introduce, PeerTracker.Tracked, PeerTracker.addPeer,
            MasterRequest.introducedName, eq_comm]
      | storageClient i =>
          simp [handle, introduce, PeerTracker.Tracked, PeerTracker.addPeer,
            MasterRequest.introducedName, eq_comm]
      | notSet => simp [handle, introduce, MasterRequest.introducedName]

/-- The peer table knows the names that have introduced themselves. -/
theorem tracked_run (es : List MasterRequest) (name : String) :
    (run {} es).peerTracker.Tracked name ↔ ∃ e ∈ es, e.introducedName = some name := by
  induction es using List.reverseRecOn with
  | nil => simpa [PeerTracker.Tracked] using Finmap.notMem_empty
  | append_singleton es e ih =>
      rw [run_snoc, tracked_handle, ih]
      simp only [List.mem_append, List.mem_singleton, or_and_right, exists_or, exists_eq_left]
      exact or_comm

/-- The view has an entry for the managers that have introduced themselves and for
those that a storage change was about. -/
theorem mem_managerViews_run (es : List MasterRequest) (name : String) :
    name ∈ (run {} es).fileView.managerViews ↔
      ∃ e ∈ es, e.introducedManager = some name ∨ name ∈ e.changedNames := by
  induction es using List.reverseRecOn with
  | nil => simpa using Finmap.notMem_empty
  | append_singleton es e ih =>
      rw [run_snoc, mem_handle, ih]
      simp only [List.mem_append, List.mem_singleton, or_and_right, exists_or, exists_eq_left]
      rw [← or_assoc, or_comm]

/-! ## The view can be served -/

/-- Every manager of the view is a known peer. -/
def ViewsTracked (m : StorageMaster) : Prop :=
  ∀ name ∈ m.fileView.managerViews, m.peerTracker.Tracked name

/-- The reply of `GetView`: the files of every manager with its address. -/
def viewReply (m : StorageMaster) (o : ViewOrder) : GetViewReply :=
  { view := (traverse o.managers m.fileView.managerViews).map fun (name, view) =>
      { name, uri := m.peerTracker.uriOf name
        key := (traverse (o.files name) view.fileKeys).map Prod.fst } }

theorem mapM_uri_of_tracked {t : PeerTracker} (views : List ManagerView)
    (h : ∀ v ∈ views, t.Tracked v.name) :
    (views.mapM fun v => do
      let p ← t.getPeerFromName v.name
      return { v with uri := p.rpcUri } : Except Failure (List ManagerView)) =
        .ok (views.map fun v => { v with uri := t.uriOf v.name }) := by
  induction views with
  | nil => rfl
  | cons v views ih =>
      obtain ⟨p, hp, hu⟩ := PeerTracker.getPeerFromName_of_tracked (h v (by simp))
      rw [List.mapM_cons, ih fun v' hv' => h v' (by simp [hv']), hp, List.map_cons, ← hu]
      rfl

theorem populateUris_of_tracked {t : PeerTracker} {reply : GetViewReply}
    (h : ∀ v ∈ reply.view, t.Tracked v.name) : t.populateViewReply reply =
      .ok { reply with view := reply.view.map fun v => { v with uri := t.uriOf v.name } } := by
  rw [PeerTracker.populateViewReply, mapM_uri_of_tracked _ h]
  rfl

theorem mapM_uri_error {t : PeerTracker} (views : List ManagerView)
    (h : ∃ v ∈ views, ¬ t.Tracked v.name) :
    (views.mapM fun v => do
      let p ← t.getPeerFromName v.name
      return { v with uri := p.rpcUri } : Except Failure (List ManagerView)) =
        .error .outOfRange := by
  induction views with
  | nil => simp at h
  | cons v views ih =>
      rw [List.mapM_cons]
      by_cases hv : t.Tracked v.name
      · obtain ⟨p, hp, -⟩ := PeerTracker.getPeerFromName_of_tracked hv
        have hrest : ∃ v' ∈ views, ¬ t.Tracked v'.name := by
          obtain ⟨v', hmem, hun⟩ := h
          rcases List.mem_cons.mp hmem with rfl | hmem
          · exact absurd hv hun
          · exact ⟨v', hmem, hun⟩
        rw [hp, ih hrest]
        rfl
      · have hnone : t.getPeerFromName v.name = .error .outOfRange := by
          simp [PeerTracker.getPeerFromName, Finmap.lookup_eq_none.mpr hv]
        rw [hnone]
        rfl

theorem getView_of_tracked {m : StorageMaster} {o : ViewOrder}
    (h : ∀ p ∈ traverse o.managers m.fileView.managerViews, m.peerTracker.Tracked p.1) :
    m.getView o = .ok (.ok, m.viewReply o) := by
  have hviews : ∀ v ∈ (m.fileView.populateViewReply o {}).view, m.peerTracker.Tracked v.name := by
    intro v hv
    simp only [StorageFileView.populateViewReply, List.nil_append, List.mem_map] at hv
    obtain ⟨p, hp, rfl⟩ := hv
    exact h p hp
  rw [getView, populateUris_of_tracked hviews]
  simp only [bind, Except.bind, pure, Except.pure, viewReply, StorageFileView.populateViewReply,
    List.nil_append, List.map_map]
  rfl

theorem getView_error {m : StorageMaster} {o : ViewOrder}
    (h : ∃ p ∈ traverse o.managers m.fileView.managerViews, ¬ m.peerTracker.Tracked p.1) :
    m.getView o = .error .outOfRange := by
  obtain ⟨p, hp, hun⟩ := h
  simp only [getView, PeerTracker.populateViewReply, StorageFileView.populateViewReply]
  rw [mapM_uri_error]
  · rfl
  · simp only [List.nil_append, List.mem_map]
    exact ⟨_, ⟨p, hp, rfl⟩, hun⟩

theorem getView_of_viewsTracked {m : StorageMaster} {o : ViewOrder} (h : m.ViewsTracked)
    (ho : m.fileView.TraversedBy o) : m.getView o = .ok (.ok, m.viewReply o) :=
  getView_of_tracked fun p hp => h p.1 (mem_of_lookup ((mem_traverse ho.1 p.1 p.2).mp hp))

/-- `GetView` answers exactly when every manager of the view is a known peer. -/
theorem getView_ok_iff {m : StorageMaster} {o : ViewOrder} (ho : m.fileView.TraversedBy o) :
    (∃ reply, m.getView o = .ok reply) ↔ m.ViewsTracked := by
  constructor
  · rintro ⟨reply, hreply⟩ name hname
    by_contra hun
    obtain ⟨view, hview⟩ := Finmap.mem_iff.mp hname
    rw [getView_error ⟨(name, view), (mem_traverse ho.1 _ _).mpr hview, hun⟩] at hreply
    cases hreply
  · intro h
    exact ⟨_, getView_of_viewsTracked h ho⟩

/-- Whatever `GetView` answers, it is the reply that lists the whole view. -/
theorem getView_ok {m : StorageMaster} {o : ViewOrder} (ho : m.fileView.TraversedBy o)
    {status : Status} {reply : GetViewReply} (h : m.getView o = .ok (status, reply)) :
    m.ViewsTracked ∧ reply = m.viewReply o := by
  have htracked := (getView_ok_iff ho).mp ⟨_, h⟩
  cases h.symm.trans (getView_of_viewsTracked htracked ho)
  exact ⟨htracked, rfl⟩

/-- The names of the reply are those of the view. -/
theorem names_viewReply {m : StorageMaster} {o : ViewOrder} (ho : m.fileView.TraversedBy o) :
    (m.viewReply o).view.map ManagerView.name = o.managers := by
  rw [viewReply, List.map_map]
  exact keys_traverse ho.1

/-- What the reply says of a manager of the view. -/
theorem mem_viewReply {m : StorageMaster} {o : ViewOrder} (ho : m.fileView.TraversedBy o)
    {view : ManagerView} (h : view ∈ (m.viewReply o).view) :
    view.name ∈ m.fileView.managerViews ∧ view.uri = m.peerTracker.uriOf view.name ∧
      view.key.Nodup ∧ ∀ key, key ∈ view.key ↔ m.fileView.Lists view.name key := by
  obtain ⟨⟨name, files⟩, hp, rfl⟩ := List.mem_map.mp h
  have hlookup := (mem_traverse ho.1 name files).mp hp
  have hfiles := ho.2 name files hlookup
  refine ⟨mem_of_lookup hlookup, rfl, ?_, fun key => ?_⟩
  · simpa only [keys_traverse hfiles] using hfiles.1
  · simp only [keys_traverse hfiles]
    rw [hfiles.2, StorageFileView.Lists, entry_of_lookup _ hlookup]

theorem viewsTracked_handle_iff {m : StorageMaster} {e : MasterRequest} (h : m.ViewsTracked) :
    (m.handle e).ViewsTracked ↔
      ∀ name ∈ e.changedNames, m.peerTracker.Tracked name := by
  have hchange : ∀ name ∈ e.changedNames, e.introducedName ≠ some name := by
    intro name hname
    cases e with
    | storageChange => simp [MasterRequest.introducedName]
    | introduce => simp [MasterRequest.changedNames, MasterRequest.actions] at hname
  constructor
  · intro hu name hname
    have ht := hu name ((mem_handle m e name).mpr (.inr (.inl hname)))
    exact ((tracked_handle m e name).mp ht).resolve_left (hchange name hname)
  · intro hgood name hname
    rw [tracked_handle]
    rcases (mem_handle m e name).mp hname with hintro | hchanged | hold
    · exact .inl (MasterRequest.introducedName_of_manager hintro)
    · exact .inr (hgood name hchanged)
    · exact .inr (h name hold)

/-- **When the view can be served.** Along a run of introductions and storage
changes every manager of the view stays a known peer, and `GetView` always
answers, exactly when every storage change is about names that have introduced
themselves before. -/
theorem getView_always_answers_iff (es : List MasterRequest) :
    Throughout (fun es' => (run {} es').ViewsTracked ∧
      ∀ o, (run {} es').fileView.TraversedBy o →
        ∃ reply, (run {} es').getView o = .ok reply) es ↔
    EveryStep (fun es' e =>
      ∀ name ∈ e.changedNames, ∃ e' ∈ es', e'.introducedName = some name) es := by
  have hok : Throughout (fun _ => True) es := fun _ _ => trivial
  refine throughout_iff_everyStep ?_ ?_ hok
  · have h0 : (run {} []).ViewsTracked := fun name hname => absurd hname Finmap.notMem_empty
    exact ⟨h0, fun o ho => (getView_ok_iff ho).mpr h0⟩
  · rintro es e - ⟨ht, -⟩
    simp only [← tracked_run]
    rw [← viewsTracked_handle_iff ht, run_snoc]
    exact ⟨fun h => h.1, fun h => ⟨h, fun o ho => (getView_ok_iff ho).mpr h⟩⟩

/-- A put reported for a manager that never introduced itself. -/
def unknownPut : MasterRequest :=
  .storageChange { storageChange := [.put ⟨"k", { name := "manager:EPHEMERAL:MANAGED:n" }⟩] }

def unknownOrder : ViewOrder := ⟨["manager:EPHEMERAL:MANAGED:n"], fun _ => ["k"]⟩

/-- After it the view has a manager that is no known peer, and `GetView` throws. -/
theorem getView_throws_after_unknown_put :
    ¬ (run {} [unknownPut]).ViewsTracked ∧
      (run {} [unknownPut]).fileView.TraversedBy unknownOrder ∧
      (run {} [unknownPut]).getView unknownOrder = .error .outOfRange := by
  refine ⟨fun h => ?_, by decide, by rfl⟩
  exact absurd (h "manager:EPHEMERAL:MANAGED:n" (by decide)) (by decide)

end StorageMaster

end ProgrammableCaching
