import ProgrammableCaching.PersistentLookups
import ProgrammableCaching.Scheduler
import ProgrammableCaching.ViewAgreement

/-! The storage service together with a scheduler that parses the replies of its master. What the
managers hold comes to the tables of the scheduler by way of the reports of the clients, the view of
the master and its replies. -/

namespace ProgrammableCaching

open UnorderedMap LastWriter Runs

/-! ## The managers that the master has a view of -/

namespace System

variable {σ : Type} [StorageInterface σ] [LawfulStorage σ] {s s' : System σ} {e : Event σ}

omit [StorageInterface σ] [LawfulStorage σ] in
/-- The master has a view of exactly the managers that have introduced themselves. -/
def ViewsManagers (s : System σ) : Prop :=
  ∀ name, name ∈ s.world.master.fileView.managerViews ↔ s.IsManager name

omit [LawfulStorage σ] in
theorem ViewsManagers.startManager (h : s.ViewsManagers) (peer hostname port : String)
    (storage : σ) : (s.startManager peer hostname port storage).ViewsManagers := by
  intro name
  have hview : name ∈
      (s.startManager peer hostname port storage).world.master.fileView.managerViews ↔ _ :=
    StorageMaster.mem_handle s.world.master (.introduce peer (.storageManager
      (StorageManager.startRequest storage hostname port).1)) name
  rw [hview, isManager_startManager, h name]
  simp [MasterRequest.introducedManager, MasterRequest.changedNames, MasterRequest.actions,
    eq_comm]

omit [StorageInterface σ] [LawfulStorage σ] in
theorem ViewsManagers.startClient (h : s.ViewsManagers) (peer hostname port : String) :
    (s.startClient peer hostname port).ViewsManagers := by
  intro name
  rw [isManager_startClient, ← h name]
  rfl

theorem mem_managers_of_changed {a : Action} {name : String} (h : name ∈ a.changedManagers) :
    ∃ m ∈ a.managers, m.name = name := by
  cases a with
  | copyFrom a => simpa [Action.changedManagers, Action.managers, eq_comm] using h
  | remove a => simpa [Action.changedManagers, Action.managers, eq_comm] using h
  | put a => simpa [Action.changedManagers, Action.managers, eq_comm] using h
  | get a => cases h
  | notSet => cases h

/-- The reports of a client are about managers that the master knows. -/
theorem ViewsManagers.operated (h : s.ViewsManagers) (hwired : s.Wired) {v : String}
    {actions : List Action} (hop : Operated s s' v actions) : s'.ViewsManagers := by
  intro name
  obtain ⟨uri, d, k, r, hd, hr, hmem⟩ := hop.ruled
  have hview : name ∈ s'.world.master.fileView.managerViews ↔
      name ∈ (Action.reported actions).flatMap Action.changedManagers ∨
        name ∈ s.world.master.fileView.managerViews := by
    rw [hop.executed.master]
    exact StorageMaster.mem_foldl_changeView _ _ name
  rw [hview, hop.isManager, h name, or_iff_right_iff_imp, List.mem_flatMap]
  rintro ⟨a, ha, hname⟩
  obtain ⟨m, hm, rfl⟩ := mem_managers_of_changed hname
  exact (hwired.rules uri d hd k r hr a (hmem a (List.mem_of_mem_filter ha))).1 m hm

/-- What an event does: a server starts, the rules of a client change, or a client executes
actions. -/
theorem step_cases (h : s.Step e s') :
    (∃ peer hostname port storage, s' = s.startManager peer hostname port storage) ∨
      (∃ peer hostname port, s' = s.startClient peer hostname port) ∨
      (∃ uri d, s' = s.setRules uri d) ∨ s' = s ∨ ∃ v actions, Operated s s' v actions := by
  cases e with
  | startManager =>
      cases h.2
      exact .inl ⟨_, _, _, _, rfl⟩
  | startClient =>
      cases h.2
      exact .inr (.inl ⟨_, _, _, rfl⟩)
  | installRule request =>
      obtain ⟨hadm, hexec⟩ := h
      obtain ⟨_, hok, hstate⟩ := exceptBind_ok.mp hexec
      cases hstate
      rcases installRule_ok hadm hok with heq | ⟨uri, d, _, heq⟩
      · exact .inr (.inr (.inr (.inl heq)))
      · exact .inr (.inr (.inl ⟨uri, _, heq⟩))
  | get client request =>
      rcases operated_get h with ⟨rfl, _⟩ | hop
      · exact .inr (.inr (.inr (.inl rfl)))
      · exact .inr (.inr (.inr (.inr ⟨_, _, hop⟩)))
  | put client request =>
      rcases operated_put h with ⟨rfl, _⟩ | hop
      · exact .inr (.inr (.inr (.inl rfl)))
      · exact .inr (.inr (.inr (.inr ⟨_, _, hop⟩)))

/-- Managers stay known. -/
theorem IsManager.step {name : String} (h : s.IsManager name) (hstep : s.Step e s') :
    s'.IsManager name := by
  rcases step_cases hstep with ⟨_, _, _, _, rfl⟩ | ⟨_, _, _, rfl⟩ | ⟨_, _, rfl⟩ | rfl | ⟨_, _, hop⟩
  · exact (isManager_startManager name).mpr (.inr h)
  · exact (isManager_startClient name).mpr h
  · exact h
  · exact h
  · exact (hop.isManager name).mpr h

theorem ViewsManagers.step (h : s.ViewsManagers) (hwired : s.Wired) (hstep : s.Step e s') :
    s'.ViewsManagers := by
  rcases step_cases hstep with ⟨_, _, _, _, rfl⟩ | ⟨_, _, _, rfl⟩ | ⟨_, _, rfl⟩ | rfl | ⟨_, _, hop⟩
  · exact h.startManager _ _ _ _
  · exact h.startClient _ _ _
  · exact h
  · exact h
  · exact h.operated hwired hop

/-- The manager called `name` holds the key. -/
def Holds (s : System σ) (name key : String) : Prop :=
  (s.world.value (s.addressOf name) key).isSome

/-- The reply says of every manager which keys it holds, and is about nothing else. -/
structure Shows (s : System σ) (reply : GetViewReply) : Prop where
  managers : ∀ name, s.IsManager name ↔ ∃ view ∈ reply.view, view.name = name
  keys : ∀ view ∈ reply.view, view.key.Nodup ∧ ∀ key, key ∈ view.key ↔ s.Holds view.name key

/-- A reply of the master shows the managers, when its view agrees with them. -/
theorem shows_of_getView {o : ViewOrder} {status : Status} {reply : GetViewReply}
    (hagree : s.ViewAgrees) (hviews : s.ViewsManagers)
    (ho : s.world.master.fileView.TraversedBy o)
    (hreply : s.world.master.getView o = .ok (status, reply)) : s.Shows reply := by
  obtain ⟨_, rfl⟩ := StorageMaster.getView_ok ho hreply
  have hnames : ∀ name, s.IsManager name ↔
      ∃ view ∈ (s.world.master.viewReply o).view, view.name = name := by
    intro name
    rw [← hviews name, ← ho.1.2, ← StorageMaster.names_viewReply ho, List.mem_map]
  refine ⟨hnames, fun view hview => ?_⟩
  obtain ⟨_, _, hnodup, hkeys⟩ := StorageMaster.mem_viewReply ho hview
  exact ⟨hnodup, fun key => (hkeys key).trans (hagree _ ((hnames _).mpr ⟨view, hview, rfl⟩) key)⟩

end System

/-! ## What a reply leaves in the tables -/

namespace ServerlessSystemView

variable {v v' : ServerlessSystemView} {P : String → Prop}

/-- The engines know ephemeral managers with names of this kind only. -/
def Knows (v : ServerlessSystemView) (P : String → Prop) : Prop :=
  ∀ engine, (v.stateOf engine).ephemeralName ≠ "" → P (v.stateOf engine).ephemeralName

theorem Knows.step (h : v.Knows P) {c : ViewCall} (hstep : Step v c v')
    (hentries : ∀ view ∈ c.entries, P view.name) : v'.Knows P := by
  intro engine hne
  cases c with
  | addExecutionEngine execUri clientUri maximumTasks =>
      obtain rfl := addExecutionEngine_eq hstep
      rw [stateOf, entry_insert] at hne ⊢
      split_ifs at hne ⊢
      · exact absurd rfl hne
      · exact h engine hne
  | parseGetViewReply masterView =>
      rw [(parsed_of_ok hstep).state engine] at hne ⊢
      rcases after_cases (ManagerView.setsEphemeral v.ephemeral v.engineOf engine)
          (v.stateOf engine).ephemeralName masterView.view with
        ⟨hsame, _⟩ | ⟨pre, view, post, hsplit, hsets, _⟩
      · simp only [shown, hsame] at hne ⊢
        exact h engine hne
      · have hname := (ManagerView.setsEphemeral_eq_some.mp hsets).2
        simp only [shown, ← hname]
        exact hentries view (by simp [ViewCall.entries, hsplit])
  | tasksScheduled decisions =>
      cases hstep
      rw [stateOf_tasksScheduled] at hne ⊢
      exact h engine hne

/-- Only a reply brings new managers. -/
theorem Knows.step_other (h : v.Knows P) {c : ViewCall} (hstep : Step v c v')
    (hparse : ∀ reply, c ≠ .parseGetViewReply reply) : v'.Knows P := by
  refine h.step hstep ?_
  cases c with
  | parseGetViewReply masterView => exact absurd rfl (hparse masterView)
  | addExecutionEngine | tasksScheduled => simp [ViewCall.entries]

variable {σ : Type} [StorageInterface σ] [LawfulStorage σ] {s : System σ}

/-- The tables say which keys the managers of `s` hold. -/
structure Pictures (v : ServerlessSystemView) (s : System σ) : Prop where
  knows : v.Knows s.IsManager
  keys : ∀ name, s.IsManager name → ∃ keys, v.mgrToKeys.lookup name = some keys ∧ keys.Nodup ∧
    ∀ key, key ∈ keys ↔ s.Holds name key
  holder : ∀ name key, s.IsManager name → ¬ NamesStorage name v.ephemeral → s.Holds name key →
    ∃ mgr, v.persistantKeyToMgr.lookup key = some mgr ∧ s.IsManager mgr ∧
      ¬ NamesStorage mgr v.ephemeral ∧ s.Holds mgr key

/-- What is not the parsing of a reply leaves the picture alone. -/
theorem Pictures.step (h : v.Pictures s) {c : ViewCall} (hstep : Step v c v')
    (hparse : ∀ reply, c ≠ .parseGetViewReply reply) : v'.Pictures s := by
  have hknows := h.knows.step_other hstep hparse
  cases c with
  | addExecutionEngine execUri clientUri maximumTasks =>
      obtain rfl := addExecutionEngine_eq hstep
      exact ⟨hknows, h.keys, h.holder⟩
  | parseGetViewReply masterView => exact absurd rfl (hparse masterView)
  | tasksScheduled decisions =>
      cases hstep
      rw [tasksScheduled_tables] at hknows ⊢
      exact ⟨hknows, h.keys, h.holder⟩

end ServerlessSystemView

/-! ## The service and its scheduler -/

/-- The storage service, the view of the scheduler, and the reply of the master that it has fetched
last. -/
structure Maestro (σ : Type) where
  service : System σ := {}
  systemView : ServerlessSystemView
  viewReply : GetViewReply := {}

inductive MaestroEvent (σ : Type)
  | service (e : Event σ)
  | introduceEngine (request : SchedulerIntroduceRequest)
  | getView
  | parseGetViewReply
  | tasksScheduled (decisions : SchedulingDecisions)

namespace Maestro

variable {σ : Type} [StorageInterface σ] [LawfulStorage σ]

/-- Clients execute rules that follow up every copy. Other events may happen between the moment when
a reply is made and the moment when it is parsed. -/
inductive Step : Maestro σ → MaestroEvent σ → Maestro σ → Prop
  | service {c : Maestro σ} {e : Event σ} {service : System σ} (hstep : c.service.Step e service)
      (hfollowed : Action.FollowedUp (c.service.executedActions e)) :
      Step c (.service e) { c with service }
  | introduceEngine {c : Maestro σ} {request : SchedulerIntroduceRequest} {status : Status}
      {scheduler : Scheduler}
      (h : Scheduler.introduce ⟨c.systemView⟩ request = .ok (status, scheduler)) :
      Step c (.introduceEngine request) { c with systemView := scheduler.systemView }
  | getView {c : Maestro σ} {o : ViewOrder} {status : Status} {reply : GetViewReply}
      (ho : c.service.world.master.fileView.TraversedBy o)
      (h : c.service.world.master.getView o = .ok (status, reply)) :
      Step c .getView { c with viewReply := reply }
  | parseGetViewReply {c : Maestro σ} {systemView : ServerlessSystemView}
      (h : c.systemView.parseGetViewReply c.viewReply = .ok systemView) :
      Step c .parseGetViewReply { c with systemView }
  | tasksScheduled {c : Maestro σ} {decisions : SchedulingDecisions} :
      Step c (.tasksScheduled decisions)
        { c with systemView := c.systemView.tasksScheduled decisions }

/-- Nothing has happened yet. -/
def start (storage persistant : StorageName) : Maestro σ where
  systemView := { ephemeral := storage, persistant }

/-- What an event makes of the system view. -/
theorem Step.systemView {c c' : Maestro σ} {e : MaestroEvent σ} (h : Step c e c') :
    c'.systemView = c.systemView ∨
      (∃ call, ServerlessSystemView.Step c.systemView call c'.systemView ∧
        ∀ reply, call ≠ .parseGetViewReply reply) ∨
      e = .parseGetViewReply ∧
        c.systemView.parseGetViewReply c.viewReply = .ok c'.systemView := by
  cases h with
  | service | getView => exact .inl rfl
  | parseGetViewReply hok => exact .inr (.inr ⟨rfl, hok⟩)
  | tasksScheduled => exact .inr (.inl ⟨.tasksScheduled _, rfl, by simp⟩)
  | introduceEngine hok =>
      obtain ⟨_, hadd, hscheduler⟩ := exceptBind_ok.mp hok
      cases hscheduler
      exact .inr (.inl ⟨.addExecutionEngine _ _ _, hadd, by simp⟩)

/-- What holds along a run: the view of the master is right, and the scheduler has heard of managers
only. -/
structure Right (storage : StorageName) (c : Maestro σ) : Prop where
  wired : c.service.Wired
  agrees : c.service.ViewAgrees
  views : c.service.ViewsManagers
  ephemeral : c.systemView.ephemeral = storage
  knows : c.systemView.Knows c.service.IsManager
  fetched : ∀ view ∈ c.viewReply.view, c.service.IsManager view.name

variable {storage persistant : StorageName} {c c' : Maestro σ} {e : MaestroEvent σ}
  {es : List (MaestroEvent σ)}

theorem ephemeral_step {v v' : ServerlessSystemView} {c : ViewCall}
    (h : ServerlessSystemView.Step v c v') : v'.ephemeral = v.ephemeral := by
  cases c with
  | addExecutionEngine =>
      obtain rfl := ServerlessSystemView.addExecutionEngine_eq h
      rfl
  | parseGetViewReply => exact (ServerlessSystemView.parsed_of_ok h).ephemeral
  | tasksScheduled decisions =>
      cases h
      rw [ServerlessSystemView.tasksScheduled_tables]

theorem Right.step (h : Right storage c) (hstep : Step c e c') : Right storage c' := by
  cases hstep with
  | service hservice hfollowed =>
      obtain ⟨hwired, hagrees⟩ := System.step_spec h.wired hservice
      exact {
        wired := hwired
        agrees := (hagrees h.agrees).mpr hfollowed
        views := h.views.step h.wired hservice
        ephemeral := h.ephemeral
        knows := fun engine hne => (h.knows engine hne).step hservice
        fetched := fun view hview => (h.fetched view hview).step hservice }
  | introduceEngine hok =>
      obtain ⟨_, hadd, hscheduler⟩ := exceptBind_ok.mp hok
      cases hscheduler
      exact { h with
        ephemeral := (ephemeral_step (c := .addExecutionEngine _ _ _) hadd).trans h.ephemeral
        knows := h.knows.step_other (c := .addExecutionEngine _ _ _) hadd (by simp) }
  | getView ho hreply =>
      have hshows := System.shows_of_getView h.agrees h.views ho hreply
      exact { h with fetched := fun view hview => (hshows.managers _).mpr ⟨view, hview, rfl⟩ }
  | parseGetViewReply hok =>
      exact { h with
        ephemeral := (ephemeral_step (c := .parseGetViewReply _) hok).trans h.ephemeral
        knows := h.knows.step (c := .parseGetViewReply _) hok h.fetched }
  | tasksScheduled =>
      exact { h with
        ephemeral := (ephemeral_step (c := .tasksScheduled _) rfl).trans h.ephemeral
        knows := h.knows.step_other (c := .tasksScheduled _) rfl (by simp) }

variable {c₀ c₁ c₂ c₃ : Maestro σ} {pre mid post : List (MaestroEvent σ)}

section Example

open World.TwoManagers

end Example

end Maestro

end ProgrammableCaching
