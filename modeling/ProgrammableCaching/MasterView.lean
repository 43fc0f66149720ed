import ProgrammableCaching.Library.LastWriter
import ProgrammableCaching.MasterRuns

/-! The view of the storage master is exact: the last event about a manager and
a key since the manager's latest introduction decides whether the key is listed
there. -/

namespace ProgrammableCaching

open UnorderedMap LastWriter Runs

/-- What a request says about which manager holds which key. -/
inductive ViewEvent
  | introduced (introduce : StorageManagerIntroduce)
  | put (name key : String)
  | removed (name key : String)
  deriving DecidableEq, Repr

namespace ViewEvent

/-- The event is an introduction of the manager called `name`. -/
def Introduces (name : String) : ViewEvent → Prop
  | introduced i => StorageMaster.generateName (.storageManager i) = name
  | _ => False

/-- The event is an introduction of the manager, or a put or a removal of the
key there. -/
def Concerns (name key : String) : ViewEvent → Prop
  | introduced i => StorageMaster.generateName (.storageManager i) = name
  | put name' key' => name' = name ∧ key' = key
  | removed name' key' => name' = name ∧ key' = key

instance (name : String) (e : ViewEvent) : Decidable (e.Introduces name) := by
  cases e <;> unfold Introduces <;> infer_instance

instance (name key : String) (e : ViewEvent) : Decidable (e.Concerns name key) := by
  cases e <;> unfold Concerns <;> infer_instance

/-- What the event makes of the listing of `key` at the manager. -/
def listing (name key : String) (e : ViewEvent) : Option Prop :=
  if e.Concerns name key then
    match e with
    | introduced i => some (key ∈ i.file)
    | put _ _ => some True
    | removed _ _ => some False
  else none

/-- The address that the event gives the manager. -/
def address (name : String) : ViewEvent → Option String
  | introduced i =>
      if StorageMaster.generateName (.storageManager i) = name
      then some (StorageMaster.rpcUri i.rpcHostname i.rpcPort) else none
  | _ => none

theorem listing_eq_none {name key : String} {e : ViewEvent} :
    e.listing name key = none ↔ ¬ e.Concerns name key := by
  unfold listing
  split
  · cases e <;> simp_all
  · simp_all

theorem address_eq_none {name : String} {e : ViewEvent} (h : ¬ e.Introduces name) :
    e.address name = none := by
  cases e with
  | introduced i => simpa [address, Introduces] using h
  | put => rfl
  | removed => rfl

end ViewEvent

/-- The event of a put or a remove action. -/
def Action.viewEvent : Action → Option ViewEvent
  | .put a => some (.put a.mgr.name a.key)
  | .remove a => some (.removed a.mgr.name a.key)
  | .get _ | .copyFrom _ | .notSet => none

def MasterRequest.viewEvents : MasterRequest → List ViewEvent
  | .introduce _ (.storageManager i) => [.introduced i]
  | .introduce _ _ => []
  | .storageChange request => request.storageChange.filterMap Action.viewEvent

/-- The events of a run, in order. -/
def history (es : List MasterRequest) : List ViewEvent := es.flatMap MasterRequest.viewEvents

/-- The run has no copy actions, and its put and remove actions name managers
that have introduced themselves before. -/
def ChangesIntroduced (es : List MasterRequest) : Prop :=
  EveryStep (fun es' e => (∀ a ∈ e.actions, ¬ a.isCopy) ∧
    ∀ name ∈ e.changedNames, ∃ e' ∈ es', e'.introducedManager = some name) es

namespace StorageMaster

/-- A manager and a client never have the same name. -/
theorem generateName_manager_ne_client (i : StorageManagerIntroduce)
    (j : StorageClientIntroduce) :
    generateName (.storageManager i) ≠ generateName (.storageClient j) := by
  intro h
  have hl := congrArg String.toList h
  simp [generateName] at hl

/-! ## What one request does to the view -/

theorem lists_changeView (v : StorageFileView) {a : Action} (hcopy : ¬ a.isCopy)
    (name key : String) :
    (changeView v a).Lists name key ↔
      after (ViewEvent.listing name key) (v.Lists name key) a.viewEvent.toList := by
  have hswap : ∀ mgr k : String, (name = mgr ∧ key = k) ↔ (mgr = name ∧ k = key) :=
    fun _ _ => and_congr eq_comm eq_comm
  cases a with
  | copyFrom a => exact absurd rfl hcopy
  | get a => rfl
  | notSet => rfl
  | put a =>
      simp only [changeView, StorageFileView.lists_addFileToManager, Action.viewEvent,
        Option.toList_some, after_cons, after_nil, ViewEvent.listing, ViewEvent.Concerns, hswap]
      by_cases hc : a.mgr.name = name ∧ a.key = key <;> simp [hc]
  | remove a =>
      simp only [changeView, StorageFileView.lists_removeFileFromManager, Action.viewEvent,
        Option.toList_some, after_cons, after_nil, ViewEvent.listing, ViewEvent.Concerns, hswap]
      by_cases hc : a.mgr.name = name ∧ a.key = key <;> simp [hc]

theorem lists_foldl_changeView (actions : List Action) (v : StorageFileView)
    (hcopy : ∀ a ∈ actions, ¬ a.isCopy) (name key : String) :
    (actions.foldl changeView v).Lists name key ↔
      after (ViewEvent.listing name key) (v.Lists name key)
        (actions.filterMap Action.viewEvent) := by
  induction actions generalizing v with
  | nil => rfl
  | cons a actions ih =>
      have hsplit : (a :: actions).filterMap Action.viewEvent =
          a.viewEvent.toList ++ actions.filterMap Action.viewEvent := by
        cases h : a.viewEvent <;> simp [h]
      rw [List.foldl_cons, ih _ fun b hb => hcopy b (by simp [hb]), hsplit, after_append,
        propext (lists_changeView v (hcopy a (by simp)) name key)]

/-- An introduction resets the listing of one manager to the introduced keys. -/
theorem lists_introduce (m : StorageMaster) (peer : String) (i : StorageManagerIntroduce)
    (name key : String) :
    (m.introduce peer (.storageManager i)).2.2.fileView.Lists name key ↔
      if generateName (.storageManager i) = name then key ∈ i.file
      else m.fileView.Lists name key := by
  simp only [introduce, lists_foldl_addFile, StorageFileView.lists_addManager]
  by_cases h : generateName (.storageManager i) = name
  · simp [h]
  · simp [h, Ne.symm h]

theorem lists_handle (m : StorageMaster) (e : MasterRequest) (hcopy : ∀ a ∈ e.actions, ¬ a.isCopy)
    (name key : String) :
    (m.handle e).fileView.Lists name key ↔
      after (ViewEvent.listing name key) (m.fileView.Lists name key) e.viewEvents := by
  cases e with
  | storageChange request => exact lists_foldl_changeView _ _ hcopy name key
  | introduce peer request =>
      cases request with
      | storageClient i => rfl
      | notSet => rfl
      | storageManager i =>
          rw [handle, lists_introduce]
          by_cases h : generateName (.storageManager i) = name
          · simp [MasterRequest.viewEvents, ViewEvent.listing, ViewEvent.Concerns, h]
          · simp [MasterRequest.viewEvents, ViewEvent.listing, ViewEvent.Concerns, h]

/-- The address of a manager in terms of the events. -/
theorem address_events (e : MasterRequest) {name uri : String}
    (hname : ∃ i, generateName (.storageManager i) = name) :
    after (ViewEvent.address name) uri e.viewEvents = (e.address name).getD uri := by
  cases e with
  | storageChange request =>
      rw [after_of_none]
      · rfl
      · intro ev hev
        obtain ⟨a, _, ha⟩ := List.mem_filterMap.mp hev
        cases a <;> cases ha <;> rfl
  | introduce peer request =>
      cases request with
      | notSet => simp [MasterRequest.viewEvents, MasterRequest.address, IntroduceRequest.address]
      | storageManager i => rfl
      | storageClient i =>
          obtain ⟨j, rfl⟩ := hname
          have hne := generateName_manager_ne_client j i
          simp [MasterRequest.viewEvents, MasterRequest.address, hne.symm]

/-! ## Whole runs -/

theorem lists_run {es : List MasterRequest} (h : ChangesIntroduced es) (name key : String) :
    (run {} es).fileView.Lists name key ↔
      after (ViewEvent.listing name key) False (history es) := by
  induction es using List.reverseRecOn with
  | nil => simpa [StorageFileView.Lists, entry, history] using Finmap.notMem_empty
  | append_singleton es e ih =>
      obtain ⟨hes, he⟩ := everyStep_snoc.mp h
      rw [run_snoc, lists_handle _ _ he.1, history, List.flatMap_append, after_append,
        List.flatMap_singleton, propext (ih hes), history]

theorem uriOf_run (es : List MasterRequest) {name : String}
    (hname : ∃ i, generateName (.storageManager i) = name) :
    (run {} es).peerTracker.uriOf name = after (ViewEvent.address name) "" (history es) := by
  induction es using List.reverseRecOn with
  | nil => rfl
  | append_singleton es e ih =>
      rw [run_snoc, uriOf_handle, ih, history, history, List.flatMap_append, after_append,
        List.flatMap_singleton, address_events e hname]

/-- The managers of the view are those that have introduced themselves. -/
theorem mem_run {es : List MasterRequest} (h : ChangesIntroduced es) (name : String) :
    name ∈ (run {} es).fileView.managerViews ↔ ∃ e ∈ es, e.introducedManager = some name := by
  induction es using List.reverseRecOn with
  | nil => simpa using Finmap.notMem_empty
  | append_singleton es e ih =>
      obtain ⟨hes, he⟩ := everyStep_snoc.mp h
      rw [run_snoc, mem_handle, ih hes]
      simp only [List.mem_append, List.mem_singleton, or_and_right, exists_or, exists_eq_left]
      constructor
      · rintro (hlast | hchanged | hold)
        · exact .inr hlast
        · exact .inl (he.2 name hchanged)
        · exact .inl hold
      · rintro (hold | hlast)
        · exact .inr (.inr hold)
        · exact .inl hlast

theorem introduced_iff_history (es : List MasterRequest) (name : String) :
    (∃ e ∈ es, e.introducedManager = some name) ↔ ∃ ev ∈ history es, ev.Introduces name := by
  simp only [history, List.mem_flatMap]
  constructor
  · rintro ⟨e, he, hname⟩
    cases e with
    | storageChange => cases hname
    | introduce peer request =>
        cases request with
        | storageClient => cases hname
        | notSet => cases hname
        | storageManager i =>
            exact ⟨.introduced i, ⟨_, he, by simp [MasterRequest.viewEvents]⟩,
              Option.some.inj hname⟩
  · rintro ⟨ev, ⟨e, he, hev⟩, hname⟩
    refine ⟨e, he, ?_⟩
    cases e with
    | storageChange request =>
        obtain ⟨a, _, ha⟩ := List.mem_filterMap.mp hev
        cases a <;> cases ha <;> exact absurd hname id
    | introduce peer request =>
        cases request with
        | storageClient => simp [MasterRequest.viewEvents] at hev
        | notSet => simp [MasterRequest.viewEvents] at hev
        | storageManager i =>
            rw [MasterRequest.viewEvents, List.mem_singleton] at hev
            subst hev
            exact congrArg some hname

/-- Since the latest introduction of the manager, the last event about the pair
decides. -/
theorem after_listing_iff {name key : String} {i : StorageManagerIntroduce}
    {post : List ViewEvent} (hpost : ∀ e ∈ post, ¬ e.Introduces name) :
    after (ViewEvent.listing name key) (key ∈ i.file) post ↔
      (∃ post₁ post₂, post = post₁ ++ .put name key :: post₂ ∧
        ∀ e ∈ post₂, ¬ e.Concerns name key) ∨
      (key ∈ i.file ∧ ∀ e ∈ post, ¬ e.Concerns name key) := by
  rw [after_iff]
  simp only [ViewEvent.listing_eq_none]
  refine or_congr_left ?_
  constructor
  · rintro ⟨post₁, e, post₂, p, rfl, he, hp, hlast⟩
    refine ⟨post₁, post₂, ?_, hlast⟩
    cases e with
    | introduced j =>
        have hno := hpost (.introduced j) (by simp)
        simp only [ViewEvent.Introduces] at hno
        simp [ViewEvent.listing, ViewEvent.Concerns, hno] at he
    | removed name' key' =>
        simp only [ViewEvent.listing] at he
        split at he
        · cases he
          exact absurd hp id
        · cases he
    | put name' key' =>
        simp only [ViewEvent.listing] at he
        split at he
        · rename_i hc
          obtain ⟨rfl, rfl⟩ := hc
          rfl
        · cases he
  · rintro ⟨post₁, post₂, rfl, hlast⟩
    exact ⟨post₁, .put name key, post₂, True, rfl, by simp [ViewEvent.listing, ViewEvent.Concerns],
      trivial, hlast⟩

/-- What the reply of `GetView` is after the run `es`: one view for each name
introduced as a manager and no other. Each has the address of the latest
introduction under the name, lists no key twice, and lists a key exactly when,
counting from that introduction, the last event about the pair is a put, or is
the introduction itself and lists the key. -/
structure ExactView (es : List MasterRequest) (reply : GetViewReply) : Prop where
  nodup : (reply.view.map ManagerView.name).Nodup
  names : ∀ name, name ∈ reply.view.map ManagerView.name ↔
    ∃ e ∈ es, e.introducedManager = some name
  views : ∀ view ∈ reply.view, view.key.Nodup ∧
    ∃ pre introduce post, history es = pre ++ .introduced introduce :: post ∧
      generateName (.storageManager introduce) = view.name ∧
      (∀ e ∈ post, ¬ e.Introduces view.name) ∧
      view.uri = rpcUri introduce.rpcHostname introduce.rpcPort ∧
      ∀ key, key ∈ view.key ↔
        (∃ post₁ post₂, post = post₁ ++ .put view.name key :: post₂ ∧
          ∀ e ∈ post₂, ¬ e.Concerns view.name key) ∨
        (key ∈ introduce.file ∧ ∀ e ∈ post, ¬ e.Concerns view.name key)

/-- **The view is exact over whole runs** of introductions and storage changes
without copies whose put and remove actions name introduced managers. -/
theorem getView_exact {es : List MasterRequest} (h : ChangesIntroduced es) {o : ViewOrder}
    (ho : (run {} es).fileView.TraversedBy o) :
    ∃ reply, (run {} es).getView o = .ok (.ok, reply) ∧ ExactView es reply := by
  have htracked : (run {} es).ViewsTracked := by
    intro name hname
    obtain ⟨e, he, hintro⟩ := (mem_run h name).mp hname
    exact (tracked_run es name).mpr ⟨e, he, MasterRequest.introducedName_of_manager hintro⟩
  refine ⟨_, getView_of_viewsTracked htracked ho, ?_, ?_, ?_⟩
  · rw [names_viewReply ho]
    exact ho.1.1
  · intro name
    rw [names_viewReply ho, ho.1.2, mem_run h]
  · intro view hmem
    obtain ⟨hname, huri, hnodup, hkeys⟩ := mem_viewReply ho hmem
    -- the manager was introduced, so its history splits at the latest introduction
    have hintro := (mem_run h view.name).mp hname
    obtain ⟨pre, ev, post, hhist, hev, hpost⟩ :=
      exists_last ((introduced_iff_history es view.name).mp hintro)
    cases ev with
    | put => exact absurd hev id
    | removed => exact absurd hev id
    | introduced i =>
        have hname : generateName (.storageManager i) = view.name := hev
        refine ⟨hnodup, pre, i, post, hhist, hname, hpost, ?_, ?_⟩
        · rw [huri, uriOf_run es ⟨i, hname⟩, hhist]
          exact after_of_last (by simp [ViewEvent.address, hname])
            fun e he => ViewEvent.address_eq_none (hpost e he)
        · intro key
          rw [hkeys, lists_run h, hhist, after_append, after_cons, ← after_listing_iff hpost]
          simp [ViewEvent.listing, ViewEvent.Concerns, hname]

section Example

/-- A manager that holds `k` is introduced; then `k` is removed and `j` put. -/
def replacedKey : List MasterRequest :=
  let mgr : Manager := { name := "manager:EPHEMERAL:MANAGED:n" }
  [.introduce "p" (.storageManager { rpcHostname := "n", rpcPort := "1", file := ["k", "k"] }),
    .storageChange { storageChange := [.remove ⟨"k", mgr⟩, .get ⟨"j", mgr⟩, .put ⟨"j", mgr⟩,
      .notSet] }]

def replacedKeyOrder : ViewOrder := ⟨["manager:EPHEMERAL:MANAGED:n"], fun _ => ["j"]⟩

theorem getView_exact_replacedKey :
    ∃ reply, (run {} replacedKey).getView replacedKeyOrder = .ok (.ok, reply) ∧
      ExactView replacedKey reply := by
  refine getView_exact ?_ (by decide)
  exact everyStep_cons.mpr ⟨by decide, everyStep_cons.mpr ⟨by decide, everyStep_nil⟩⟩

end Example

end StorageMaster

end ProgrammableCaching
