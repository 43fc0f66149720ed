import ProgrammableCaching.Library.LastWriter
import ProgrammableCaching.Library.Runs
import ProgrammableCaching.ViewParsing

/-! Which engines a run of calls of the system view leaves schedulable: those with room
for a task that have been shown a client and an ephemeral manager of their host since they
were introduced last. -/

namespace ProgrammableCaching

open UnorderedMap Runs

inductive ViewCall
  | addExecutionEngine (execUri clientUri : String) (maximumTasks : Int)
  | parseGetViewReply (masterView : GetViewReply)
  | tasksScheduled (decisions : SchedulingDecisions)

namespace ViewCall

/-- Every uri has a `:`, every manager is named after a storage, and clients have names. -/
def WellFormed : ViewCall → Prop
  | .addExecutionEngine execUri _ _ => ':' ∈ execUri.toList
  | .parseGetViewReply masterView =>
      (∀ view ∈ masterView.view,
        ':' ∈ view.uri.toList ∧ ∃ storage, NamesStorage view.name storage) ∧
        ∀ client ∈ masterView.client, ':' ∈ client.uri.toList ∧ client.name ≠ ""
  | .tasksScheduled _ => True

def Introduces (engine : String) : ViewCall → Prop
  | .addExecutionEngine execUri _ _ => execUri = engine
  | .parseGetViewReply _ | .tasksScheduled _ => False

def introducedFor (host : String) : ViewCall → Option String
  | .addExecutionEngine execUri _ _ => if hostPart execUri = host then some execUri else none
  | .parseGetViewReply _ | .tasksScheduled _ => none

def decisions : ViewCall → SchedulingDecisions
  | .tasksScheduled decisions => decisions
  | .addExecutionEngine _ _ _ | .parseGetViewReply _ => []

/-- The reply has a manager of the storage on the host. -/
def ShowsManager (storage : StorageName) (host : String) : ViewCall → Prop
  | .parseGetViewReply masterView => ∃ view ∈ masterView.view,
      NamesStorage view.name storage ∧ hostPart view.uri = host
  | .addExecutionEngine _ _ _ | .tasksScheduled _ => False

def ShowsClient (host : String) : ViewCall → Prop
  | .parseGetViewReply masterView => ∃ client ∈ masterView.client, hostPart client.uri = host
  | .addExecutionEngine _ _ _ | .tasksScheduled _ => False

end ViewCall

/-- The engine introduced last for the host; empty when there was none. -/
def latestEngine (host : String) (calls : List ViewCall) : String :=
  LastWriter.after (ViewCall.introducedFor host) "" calls

def decisionsFor (engine : String) (calls : List ViewCall) : Nat :=
  (calls.flatMap ViewCall.decisions).countP (·.engine = engine)

/-- A call shows the engine something at a time when it is the latest of its host. The calls
are those after the calls `before`. -/
def ShownTo (engine : String) (before : List ViewCall) (shows : ViewCall → Prop)
    (calls : List ViewCall) : Prop :=
  SomeStep (fun earlier call =>
    latestEngine (hostPart engine) (before ++ earlier) = engine ∧ shows call) calls

/-- The calls `calls` since the introduction at the end of `before` leave the engine with
room for a task, and with a client and an ephemeral manager of its host. -/
structure Ready (storage : StorageName) (engine : String) (before : List ViewCall)
    (maximumTasks : Int) (calls : List ViewCall) : Prop where
  room : (decisionsFor engine calls : Int) < maximumTasks
  manager : ShownTo engine before (·.ShowsManager storage (hostPart engine)) calls
  client : ShownTo engine before (·.ShowsClient (hostPart engine)) calls

theorem latestEngine_snoc (host : String) (calls : List ViewCall) (call : ViewCall) :
    latestEngine host (calls ++ [call]) =
      (call.introducedFor host).getD (latestEngine host calls) := by
  simp [latestEngine]

theorem decisionsFor_snoc (engine : String) (calls : List ViewCall) (call : ViewCall) :
    decisionsFor engine (calls ++ [call]) =
      decisionsFor engine calls + call.decisions.countP (·.engine = engine) := by
  simp [decisionsFor]

/-- Only engines of the host are introduced for it. -/
theorem hostPart_latestEngine {host engine : String} {calls : List ViewCall} (hne : engine ≠ "")
    (h : latestEngine host calls = engine) : hostPart engine = host := by
  induction calls using List.reverseRecOn with
  | nil => exact absurd h.symm hne
  | append_singleton calls call ih =>
      rw [latestEngine_snoc] at h
      cases call with
      | addExecutionEngine execUri clientUri maximumTasks =>
          by_cases hhost : hostPart execUri = host
          · simp only [ViewCall.introducedFor, if_pos hhost, Option.getD_some] at h
            rw [← h, hhost]
          · simp only [ViewCall.introducedFor, if_neg hhost, Option.getD_none] at h
            exact ih h
      | parseGetViewReply masterView => exact ih h
      | tasksScheduled decisions => exact ih h

namespace ServerlessSystemView

def exec (v : ServerlessSystemView) : ViewCall → Except Failure ServerlessSystemView
  | .addExecutionEngine execUri clientUri maximumTasks =>
      v.addExecutionEngine execUri clientUri maximumTasks
  | .parseGetViewReply masterView => v.parseGetViewReply masterView
  | .tasksScheduled decisions => return v.tasksScheduled decisions

def Step (v : ServerlessSystemView) (call : ViewCall) (v' : ServerlessSystemView) : Prop :=
  v.exec call = .ok v'

/-- The state of an engine; a default one when it has none. -/
def stateOf (v : ServerlessSystemView) (engine : String) : EngineState :=
  entry v.engineToState engine {}

/-- The engines of all hosts are the same. -/
def SameHosts (v v' : ServerlessSystemView) : Prop :=
  v'.ephemeral = v.ephemeral ∧ ∀ host, (v'.engineOfHost host).1 = (v.engineOfHost host).1

/-! ## What a reply shows to an engine -/

theorem sameHosts_engineOfHost (v : ServerlessSystemView) (host : String) :
    SameHosts v (v.engineOfHost host).2 := by
  refine ⟨rfl, fun host' => ?_⟩
  by_cases heq : host' = host
  · subst heq
    simp [engineOfHost, entry]
  · simp [engineOfHost, entry, heq]

theorem SameHosts.trans {v v' v'' : ServerlessSystemView} (h : SameHosts v v')
    (h' : SameHosts v' v'') : SameHosts v v'' :=
  ⟨h'.1.trans h.1, fun host => (h'.2 host).trans (h.2 host)⟩

theorem stateOf_modifyEngine (v : ServerlessSystemView) (engine engine' : String)
    (f : EngineState → EngineState) : (v.modifyEngine engine' f).stateOf engine =
      if engine = engine' then f (v.stateOf engine) else v.stateOf engine := by
  by_cases heq : engine = engine'
  · subst heq
    simp [stateOf, modifyEngine, entry]
  · simp [stateOf, modifyEngine, entry, heq]

/-- A manager of the ephemeral storage is noted for the engine of its host. -/
theorem parseManagerView_notes {v v' : ServerlessSystemView} {view : ManagerView}
    {storage : StorageName} (hnames : NamesStorage view.name storage)
    (hok : v.parseManagerView view = .ok v') (engine : String) :
    SameHosts v v' ∧ v'.stateOf engine =
      if storage = v.ephemeral ∧ engine = (v.engineOfHost (hostPart view.uri)).1
      then { v.stateOf engine with ephemeralName := view.name } else v.stateOf engine := by
  obtain ⟨sName, hsName, hparse⟩ := (nameToStorageName_parses_iff _ _).mpr hnames
  simp only [parseManagerView, uriToHostname_eq] at hok
  split at hok
  · have hhosts := sameHosts_engineOfHost v (hostPart view.uri)
    simp only [hsName, hparse, bind, Except.bind, pure, Except.pure, Except.ok.injEq] at hok
    subst hok
    by_cases heq : storage = v.ephemeral
    · rw [if_pos (hhosts.1 ▸ heq)]
      refine ⟨hhosts, ?_⟩
      simp only [heq, true_and]
      exact stateOf_modifyEngine (v.engineOfHost (hostPart view.uri)).2 engine _ _
    · rw [if_neg (hhosts.1 ▸ heq), if_neg fun h => heq h.1]
      exact ⟨hhosts, rfl⟩
  · cases hok

theorem parseClientView_notes {v v' : ServerlessSystemView} {client : ClientView}
    (hok : v.parseClientView client = .ok v') (engine : String) :
    SameHosts v v' ∧ v'.stateOf engine =
      if engine = (v.engineOfHost (hostPart client.uri)).1
      then { v.stateOf engine with clientName := client.name } else v.stateOf engine := by
  simp only [parseClientView, uriToHostname_eq] at hok
  split at hok
  · simp only [bind, Except.bind, pure, Except.pure, Except.ok.injEq] at hok
    subst hok
    exact ⟨sameHosts_engineOfHost v _,
      stateOf_modifyEngine (v.engineOfHost (hostPart client.uri)).2 engine _ _⟩
  · cases hok

section Reply

variable {v v' : ServerlessSystemView} {reply : GetViewReply}

/-- The managers of a reply give an engine an ephemeral manager when one of its host is among
them, and change nothing else of it. -/
theorem parse_views (hwf : ∀ view ∈ reply.view, ∃ storage, NamesStorage view.name storage)
    (hok : reply.view.foldlM parseManagerView v = .ok v') (engine : String) :
    (SameHosts v v' ∧ (v'.stateOf engine).clientName = (v.stateOf engine).clientName) ∧
      ((v'.stateOf engine).ephemeralName ≠ "" ↔ (v.stateOf engine).ephemeralName ≠ "" ∨
        ∃ view ∈ reply.view, NamesStorage view.name v.ephemeral ∧
          engine = (v.engineOfHost (hostPart view.uri)).1) := by
  refine foldlM_marks
    (I := fun w => SameHosts v w ∧ (w.stateOf engine).clientName = (v.stateOf engine).clientName)
    (Q := fun w => (w.stateOf engine).ephemeralName ≠ "")
    (fun view hview w w' hw hstep => ?_) ⟨⟨rfl, fun _ => rfl⟩, rfl⟩ hok
  obtain ⟨storage, hnames⟩ := hwf view hview
  obtain ⟨hhosts, hstate⟩ := parseManagerView_notes hnames hstep engine
  have hunique : NamesStorage view.name v.ephemeral ↔ storage = v.ephemeral :=
    ⟨hnames.unique, fun heq => heq ▸ hnames⟩
  rw [hw.1.1, hw.1.2] at hstate
  rw [hunique, hstate]
  split
  · rename_i hmark
    exact ⟨⟨hw.1.trans hhosts, hw.2⟩, iff_of_true hnames.ne_empty (.inr hmark)⟩
  · rename_i hmark
    exact ⟨⟨hw.1.trans hhosts, hw.2⟩, (or_iff_left hmark).symm⟩

theorem parse_clients (hwf : ∀ client ∈ reply.client, client.name ≠ "")
    (hok : reply.client.foldlM parseClientView v = .ok v') (engine : String) :
    (SameHosts v v' ∧ (v'.stateOf engine).ephemeralName = (v.stateOf engine).ephemeralName) ∧
      ((v'.stateOf engine).clientName ≠ "" ↔ (v.stateOf engine).clientName ≠ "" ∨
        ∃ client ∈ reply.client, engine = (v.engineOfHost (hostPart client.uri)).1) := by
  refine foldlM_marks
    (I := fun w => SameHosts v w ∧
      (w.stateOf engine).ephemeralName = (v.stateOf engine).ephemeralName)
    (Q := fun w => (w.stateOf engine).clientName ≠ "")
    (fun client hclient w w' hw hstep => ?_) ⟨⟨rfl, fun _ => rfl⟩, rfl⟩ hok
  obtain ⟨hhosts, hstate⟩ := parseClientView_notes hstep engine
  rw [hw.1.2] at hstate
  rw [hstate]
  split
  · rename_i hmark
    exact ⟨⟨hw.1.trans hhosts, hw.2⟩, iff_of_true (hwf client hclient) (.inr hmark)⟩
  · rename_i hmark
    exact ⟨⟨hw.1.trans hhosts, hw.2⟩, (or_iff_left hmark).symm⟩

theorem parseGetViewReply_notes (hwf : (ViewCall.parseGetViewReply reply).WellFormed)
    (hok : v.parseGetViewReply reply = .ok v') (engine : String) : SameHosts v v' ∧
      ((v'.stateOf engine).ephemeralName ≠ "" ↔ (v.stateOf engine).ephemeralName ≠ "" ∨
        ∃ view ∈ reply.view, NamesStorage view.name v.ephemeral ∧
          engine = (v.engineOfHost (hostPart view.uri)).1) ∧
      ((v'.stateOf engine).clientName ≠ "" ↔ (v.stateOf engine).clientName ≠ "" ∨
        ∃ client ∈ reply.client, engine = (v.engineOfHost (hostPart client.uri)).1) := by
  obtain ⟨v₁, hviews, hclients⟩ := parseGetViewReply_ok.mp hok
  obtain ⟨⟨hhosts, hclient⟩, hephemeral⟩ :=
    parse_views (fun view hv => (hwf.1 view hv).2) hviews engine
  obtain ⟨⟨hhosts', hephemeral'⟩, hclient'⟩ :=
    parse_clients (fun client hc => (hwf.2 client hc).2) hclients engine
  refine ⟨hhosts.trans hhosts', ?_, ?_⟩
  · rw [hephemeral', hephemeral]
  · rw [hclient', hclient]
    simp only [hhosts.2]

end Reply

/-! ## One call -/

theorem addExecutionEngine_eq {v v' : ServerlessSystemView} {execUri clientUri : String}
    {maximumTasks : Int} (hok : v.addExecutionEngine execUri clientUri maximumTasks = .ok v') :
    v' = { v with
      hostnameToEngine := v.hostnameToEngine.insert (hostPart execUri) execUri
      engineToState := v.engineToState.insert execUri { name := execUri, maximumTasks }
      clientUriToEngine := v.clientUriToEngine.insert clientUri execUri } := by
  simp only [addExecutionEngine, uriToHostname_eq] at hok
  split at hok
  · cases hok
    rfl
  · cases hok

theorem tasksScheduled_cons (v : ServerlessSystemView) (d : Decision)
    (decisions : SchedulingDecisions) : v.tasksScheduled (d :: decisions) =
      (v.modifyEngine d.engine fun e =>
        { e with runningTasks := e.runningTasks + 1 }).tasksScheduled decisions := rfl

theorem sameHosts_tasksScheduled (v : ServerlessSystemView) (decisions : SchedulingDecisions) :
    SameHosts v (v.tasksScheduled decisions) := by
  induction decisions generalizing v with
  | nil => exact ⟨rfl, fun _ => rfl⟩
  | cons d decisions ih => exact ih _

theorem stateOf_tasksScheduled (v : ServerlessSystemView) (decisions : SchedulingDecisions)
    (engine : String) : (v.tasksScheduled decisions).stateOf engine =
      { v.stateOf engine with
        runningTasks := (v.stateOf engine).runningTasks +
          decisions.countP (·.engine = engine) } := by
  induction decisions generalizing v with
  | nil => simp [tasksScheduled]
  | cons d decisions ih =>
      rw [tasksScheduled_cons, ih, stateOf_modifyEngine, List.countP_cons]
      by_cases hd : engine = d.engine
      · simp [hd]
        omega
      · simp [hd, Ne.symm hd]

section Call

variable {v v' : ServerlessSystemView} {call : ViewCall} {engine : String}

theorem engineOfHost_step (hwf : call.WellFormed) (hstep : Step v call v') :
    v'.ephemeral = v.ephemeral ∧ ∀ host,
      (v'.engineOfHost host).1 = (call.introducedFor host).getD (v.engineOfHost host).1 := by
  cases call with
  | addExecutionEngine execUri clientUri maximumTasks =>
      obtain rfl := addExecutionEngine_eq hstep
      refine ⟨rfl, fun host => ?_⟩
      by_cases heq : host = hostPart execUri
      · simp [engineOfHost, entry, heq, ViewCall.introducedFor]
      · simp [engineOfHost, entry, heq, Ne.symm heq, ViewCall.introducedFor]
  | parseGetViewReply masterView => exact (parseGetViewReply_notes hwf hstep "").1
  | tasksScheduled decisions =>
      cases hstep
      exact sameHosts_tasksScheduled v decisions

/-- A call that does not introduce the engine adds its decisions to the load. -/
theorem load_step (hstep : Step v call v') (hnot : ¬ call.Introduces engine) :
    load (v'.stateOf engine) = ((v.stateOf engine).name,
      (v.stateOf engine).runningTasks + call.decisions.countP (·.engine = engine),
      (v.stateOf engine).maximumTasks) := by
  cases call with
  | addExecutionEngine execUri clientUri maximumTasks =>
      obtain rfl := addExecutionEngine_eq hstep
      have hne : engine ≠ execUri := fun heq => hnot heq.symm
      simp [stateOf, entry, hne, load, ViewCall.decisions]
  | parseGetViewReply masterView =>
      have hsame := (parseGetViewReply_sameLoad hstep).entry engine
      simpa [stateOf, load, ViewCall.decisions] using hsame
  | tasksScheduled decisions =>
      cases hstep
      rw [stateOf_tasksScheduled]
      rfl

/-- The engine learns of an ephemeral manager exactly when one of its host is shown while it is
the engine of that host. -/
theorem ephemeralName_step (hwf : call.WellFormed) (hstep : Step v call v')
    (hnot : ¬ call.Introduces engine)
    (hhost : ∀ host, (v.engineOfHost host).1 = engine → host = hostPart engine) :
    (v'.stateOf engine).ephemeralName ≠ "" ↔ (v.stateOf engine).ephemeralName ≠ "" ∨
      (v.engineOfHost (hostPart engine)).1 = engine ∧
        call.ShowsManager v.ephemeral (hostPart engine) := by
  cases call with
  | addExecutionEngine execUri clientUri maximumTasks =>
      obtain rfl := addExecutionEngine_eq hstep
      have hne : engine ≠ execUri := fun heq => hnot heq.symm
      simp [stateOf, entry, hne, ViewCall.ShowsManager]
  | parseGetViewReply masterView =>
      rw [(parseGetViewReply_notes hwf hstep engine).2.1]
      refine or_congr_right ⟨?_, ?_⟩
      · rintro ⟨view, hview, hnames, heq⟩
        have huri := hhost _ heq.symm
        exact ⟨huri ▸ heq.symm, view, hview, hnames, huri⟩
      · rintro ⟨hlatest, view, hview, hnames, huri⟩
        exact ⟨view, hview, hnames, huri ▸ hlatest.symm⟩
  | tasksScheduled decisions =>
      cases hstep
      simp [stateOf_tasksScheduled, ViewCall.ShowsManager]

theorem clientName_step (hwf : call.WellFormed) (hstep : Step v call v')
    (hnot : ¬ call.Introduces engine)
    (hhost : ∀ host, (v.engineOfHost host).1 = engine → host = hostPart engine) :
    (v'.stateOf engine).clientName ≠ "" ↔ (v.stateOf engine).clientName ≠ "" ∨
      (v.engineOfHost (hostPart engine)).1 = engine ∧ call.ShowsClient (hostPart engine) := by
  cases call with
  | addExecutionEngine execUri clientUri maximumTasks =>
      obtain rfl := addExecutionEngine_eq hstep
      have hne : engine ≠ execUri := fun heq => hnot heq.symm
      simp [stateOf, entry, hne, ViewCall.ShowsClient]
  | parseGetViewReply masterView =>
      rw [(parseGetViewReply_notes hwf hstep engine).2.2]
      refine or_congr_right ⟨?_, ?_⟩
      · rintro ⟨client, hclient, heq⟩
        have huri := hhost _ heq.symm
        exact ⟨huri ▸ heq.symm, client, hclient, huri⟩
      · rintro ⟨hlatest, client, hclient, huri⟩
        exact ⟨client, hclient, huri ▸ hlatest.symm⟩
  | tasksScheduled decisions =>
      cases hstep
      simp [stateOf_tasksScheduled, ViewCall.ShowsClient]

/-- A well-formed call comes back. -/
theorem step_total (v : ServerlessSystemView) {call : ViewCall} (hwf : call.WellFormed) :
    ∃ v', Step v call v' := by
  cases call with
  | addExecutionEngine execUri clientUri maximumTasks =>
      have hcolon : ':' ∈ execUri.toList := hwf
      simp [Step, exec, addExecutionEngine, uriToHostname_eq, hcolon, bind, Except.bind, pure,
        Except.pure]
  | parseGetViewReply masterView =>
      exact (parseGetViewReply_ok_iff v masterView).mpr
        ⟨hwf.1, fun client hc => (hwf.2 client hc).1⟩
  | tasksScheduled decisions => exact ⟨_, rfl⟩

end Call

/-! ## Whole runs -/

section Run

variable {v v₁ v₂ : ServerlessSystemView} {calls before after : List ViewCall} {engine : String}

theorem reaches_total (v : ServerlessSystemView) (hwf : ∀ call ∈ calls, call.WellFormed) :
    ∃ v', Reaches Step v calls v' := by
  induction calls using List.reverseRecOn with
  | nil => exact ⟨v, .nil⟩
  | append_singleton calls call ih =>
      obtain ⟨w, hw⟩ := ih fun call' hc => hwf call' (List.mem_append_left _ hc)
      obtain ⟨v', hv'⟩ := step_total w (hwf call (by simp))
      exact ⟨v', hw.snoc hv'⟩

/-- The table of hosts has the latest engine of each host. -/
def TracksHosts (storage : StorageName) (calls : List ViewCall) (v : ServerlessSystemView) : Prop :=
  v.ephemeral = storage ∧ ∀ host, (v.engineOfHost host).1 = latestEngine host calls

theorem tracksHosts_start (storage persistant : StorageName) :
    TracksHosts storage [] { ephemeral := storage, persistant := persistant } :=
  ⟨rfl, fun host => by simp [engineOfHost, entry, latestEngine]⟩

theorem tracksHosts_step {storage : StorageName} {call : ViewCall}
    (h : TracksHosts storage calls v) (hwf : call.WellFormed) (hstep : Step v call v₁) :
    TracksHosts storage (calls ++ [call]) v₁ := by
  obtain ⟨hephemeral, hhosts⟩ := engineOfHost_step hwf hstep
  refine ⟨hephemeral.trans h.1, fun host => ?_⟩
  rw [hhosts, latestEngine_snoc, h.2]

theorem tracksHosts_of_reaches {storage : StorageName} (h : TracksHosts storage before v)
    (hwf : ∀ call ∈ calls, call.WellFormed) (hrun : Reaches Step v calls v₁) :
    TracksHosts storage (before ++ calls) v₁ := by
  induction hrun with
  | nil => simpa using h
  | snoc _ hstep ih =>
      rw [← List.append_assoc]
      exact tracksHosts_step (ih fun call hc => hwf call (by simp [hc])) (hwf _ (by simp)) hstep

/-- The engines that come to be introduced have names. -/
theorem introduces_of_reaches {call : ViewCall} (hrun : Reaches Step v calls v₁)
    (hc : call ∈ calls) (h : call.Introduces engine) : engine ≠ "" := by
  induction hrun with
  | nil => cases hc
  | snoc _ hstep ih =>
      rcases List.mem_append.mp hc with hc | hc
      · exact ih hc
      · rw [List.mem_singleton] at hc
        subst hc
        cases call with
        | addExecutionEngine execUri clientUri maximumTasks =>
            have hcolon := (addExecutionEngine_engines hstep).1
            rw [show execUri = engine from h] at hcolon
            rintro rfl
            simp at hcolon
        | parseGetViewReply masterView => exact h.elim
        | tasksScheduled decisions => exact h.elim

/-- An engine that nobody introduced has no name. -/
theorem name_of_reaches (hrun : Reaches Step v calls v₁) (h : (v.stateOf engine).name = "")
    (hnot : ∀ call ∈ calls, ¬ call.Introduces engine) : (v₁.stateOf engine).name = "" := by
  induction hrun with
  | nil => exact h
  | snoc _ hstep ih =>
      have hload := load_step hstep (hnot _ (by simp))
      rw [← ih fun call hc => hnot call (by simp [hc])]
      exact congrArg Prod.fst hload

/-- The empty engine, which stands for hosts without one, never gets a name. -/
theorem name_stateOf_empty {storage persistant : StorageName}
    (hrun : Reaches Step { ephemeral := storage, persistant := persistant } calls v) :
    (v.stateOf "").name = "" :=
  name_of_reaches hrun (by simp [stateOf, entry])
    fun _ hc hintro => introduces_of_reaches hrun hc hintro rfl

/-- What is known of an engine since its introduction at the end of `before`. -/
theorem stateOf_since {storage : StorageName} {maximumTasks : Int}
    (h : TracksHosts storage before v) (hne : engine ≠ "")
    (hfresh : v.stateOf engine = { name := engine, maximumTasks })
    (hwf : ∀ call ∈ after, call.WellFormed) (hnot : ∀ call ∈ after, ¬ call.Introduces engine)
    (hrun : Reaches Step v after v₁) :
    load (v₁.stateOf engine) = (engine, (decisionsFor engine after : Int), maximumTasks) ∧
      ((v₁.stateOf engine).ephemeralName ≠ "" ↔
        ShownTo engine before (·.ShowsManager storage (hostPart engine)) after) ∧
      ((v₁.stateOf engine).clientName ≠ "" ↔
        ShownTo engine before (·.ShowsClient (hostPart engine)) after) := by
  induction hrun with
  | nil => simp [hfresh, load, decisionsFor, ShownTo]
  | @snoc calls call w w' hcalls hstep ih =>
      have hwf' : ∀ call ∈ calls, call.WellFormed := fun call hc => hwf call (by simp [hc])
      have hcall : call.WellFormed := hwf call (by simp)
      have hother : ¬ call.Introduces engine := hnot call (by simp)
      obtain ⟨hload, hmanager, hclient⟩ := ih hwf' fun call hc => hnot call (by simp [hc])
      obtain ⟨hstorage, hhosts⟩ := tracksHosts_of_reaches h hwf' hcalls
      have hhost : ∀ host, (w.engineOfHost host).1 = engine → host = hostPart engine :=
        fun host heq => (hostPart_latestEngine hne ((hhosts host).symm.trans heq)).symm
      simp only [load, Prod.mk.injEq] at hload
      refine ⟨?_, ?_, ?_⟩
      · rw [load_step hstep hother, hload.1, hload.2.1, hload.2.2, decisionsFor_snoc]
        simp
      · rw [ephemeralName_step hcall hstep hother hhost, hmanager, hstorage, hhosts]
        exact someStep_snoc.symm
      · rw [clientName_step hcall hstep hother hhost, hclient, hhosts]
        exact someStep_snoc.symm

theorem mem_getSchedulableEngines_iff {order : List String}
    (ho : Enumerates order v.engineToState) :
    engine ∈ v.getSchedulableEngines order ↔ (v.stateOf engine).availableToSchedule := by
  rw [mem_getSchedulableEngines ho]
  cases hlookup : v.engineToState.lookup engine with
  | none => simp [stateOf, entry, hlookup, EngineState.availableToSchedule]
  | some state => simp [stateOf, entry, hlookup]

theorem nodup_getSchedulableEngines {order : List String} (ho : Enumerates order v.engineToState) :
    (v.getSchedulableEngines order).Nodup := by
  have hsub : List.Sublist (v.getSchedulableEngines order) order := by
    conv_rhs => rw [← keys_traverse ho]
    exact List.filter_sublist.map Prod.fst
  exact ho.1.sublist hsub

/-- An engine is available after its last introduction exactly when it is ready. -/
theorem available_since_iff {storage : StorageName} {clientUri : String} {maximumTasks : Int}
    (h : TracksHosts storage before v)
    (hwf : ∀ call ∈ .addExecutionEngine engine clientUri maximumTasks :: after, call.WellFormed)
    (hnot : ∀ call ∈ after, ¬ call.Introduces engine)
    (hadd : Step v (.addExecutionEngine engine clientUri maximumTasks) v₁)
    (hrun : Reaches Step v₁ after v₂) :
    (v₂.stateOf engine).availableToSchedule ↔
      Ready storage engine (before ++ [.addExecutionEngine engine clientUri maximumTasks])
        maximumTasks after := by
  have hcolon : ':' ∈ engine.toList := hwf _ List.mem_cons_self
  have hne : engine ≠ "" := by
    rintro rfl
    simp at hcolon
  have hfresh : v₁.stateOf engine = { name := engine, maximumTasks } := by
    rw [addExecutionEngine_eq hadd]
    simp [stateOf, entry]
  obtain ⟨hload, hmanager, hclient⟩ := stateOf_since
    (tracksHosts_step h (hwf _ List.mem_cons_self) hadd) hne hfresh
    (fun call hc => hwf call (List.mem_cons_of_mem _ hc)) hnot hrun
  simp only [load, Prod.mk.injEq] at hload
  simp only [EngineState.availableToSchedule, Bool.and_eq_true, decide_eq_true_eq, hmanager,
    hclient, hload, hne, not_false_eq_true, and_true, ne_eq]
  constructor
  · rintro ⟨⟨hroom, hc⟩, hm⟩
    exact ⟨hroom, hm, hc⟩
  · rintro ⟨hroom, hm, hc⟩
    exact ⟨⟨hroom, hc⟩, hm⟩

end Run

/-- **The schedulable engines.** After a run of well-formed calls an engine is schedulable
exactly when it was introduced and its last introduction is followed by fewer decisions for it
than it may run tasks, by a reply with an ephemeral manager of its host and by one with a client
of its host, both at times when it was the latest engine of that host. -/
theorem schedulableEngines_exact (storage persistant : StorageName) {calls : List ViewCall}
    (hwf : ∀ call ∈ calls, call.WellFormed) :
    ∃ v, Reaches Step { ephemeral := storage, persistant := persistant } calls v ∧
      ∀ order, Enumerates order v.engineToState →
        (v.getSchedulableEngines order).Nodup ∧
        ∀ engine, engine ∈ v.getSchedulableEngines order ↔
          ∃ before clientUri maximumTasks after,
            calls = before ++ .addExecutionEngine engine clientUri maximumTasks :: after ∧
            (∀ call ∈ after, ¬ call.Introduces engine) ∧
            Ready storage engine (before ++ [.addExecutionEngine engine clientUri maximumTasks])
              maximumTasks after := by
  obtain ⟨v, hrun⟩ := reaches_total { ephemeral := storage, persistant := persistant } hwf
  refine ⟨v, hrun, fun order ho => ⟨nodup_getSchedulableEngines ho, fun engine => ?_⟩⟩
  rw [mem_getSchedulableEngines_iff ho]
  by_cases hex : ∃ call ∈ calls, call.Introduces engine
  · obtain ⟨before, call, after, rfl, hcall, hnot⟩ := LastWriter.exists_last hex
    obtain ⟨u, hbefore, hrest⟩ := hrun.prefix
    cases call with
    | addExecutionEngine execUri clientUri maximumTasks =>
        have hengine : execUri = engine := hcall
        subst hengine
        obtain ⟨u', hadd, hafter⟩ := Reaches.cons_iff.mp hrest
        have hhosts := tracksHosts_of_reaches (tracksHosts_start storage persistant)
          (fun call hc => hwf call (List.mem_append_left _ hc)) hbefore
        rw [available_since_iff hhosts (fun call hc => hwf call (List.mem_append_right _ hc)) hnot
          hadd hafter]
        constructor
        · exact fun hready => ⟨before, clientUri, maximumTasks, after, rfl, hnot, hready⟩
        · -- a second split at the last introduction is the same split
          rintro ⟨before', clientUri', maximumTasks', after', heq, hnot', hready⟩
          obtain ⟨rfl, hsame, rfl⟩ := LastWriter.last_unique heq hcall rfl hnot hnot'
          cases hsame
          exact hready
    | parseGetViewReply masterView => exact hcall.elim
    | tasksScheduled decisions => exact hcall.elim
  · refine iff_of_false ?_ ?_
    · have hname : (v.stateOf engine).name = "" :=
        name_of_reaches hrun (by simp [stateOf, entry]) fun call hc h => hex ⟨call, hc, h⟩
      simp [EngineState.availableToSchedule, hname]
    · rintro ⟨before, clientUri, maximumTasks, after, rfl, _⟩
      exact hex ⟨.addExecutionEngine engine clientUri maximumTasks, by simp, rfl⟩

section Example

/-- An engine of host `h` is introduced, and then a manager and a client there are shown. -/
def shownCalls : List ViewCall :=
  [.addExecutionEngine "h:3" "h:2" 1,
    .parseGetViewReply {
      view := [{ name := "manager:EPHEMERAL:MANAGED:h", uri := "h:1" }]
      client := [{ name := "client:h", uri := "h:2" }] }]

theorem schedulableEngines_exact_shown :
    ∃ v, Reaches Step { ephemeral := .ephemeral, persistant := .fakePersistant } shownCalls v ∧
      ∀ order, Enumerates order v.engineToState →
        (v.getSchedulableEngines order).Nodup ∧
        ∀ engine, engine ∈ v.getSchedulableEngines order ↔
          ∃ before clientUri maximumTasks after,
            shownCalls = before ++ .addExecutionEngine engine clientUri maximumTasks :: after ∧
            (∀ call ∈ after, ¬ call.Introduces engine) ∧
            Ready .ephemeral engine
              (before ++ [.addExecutionEngine engine clientUri maximumTasks])
              maximumTasks after :=
  schedulableEngines_exact .ephemeral .fakePersistant (by
    intro call hcall
    simp only [shownCalls, List.mem_cons, List.not_mem_nil, or_false] at hcall
    rcases hcall with rfl | rfl
    · show ':' ∈ "h:3".toList
      decide
    · refine ⟨?_, ?_⟩
      · simp only [List.mem_singleton, forall_eq]
        exact ⟨by decide, .ephemeral, (nameToStorageName_parses_iff _ _).mp ⟨_, rfl, rfl⟩⟩
      · simp only [List.mem_singleton, forall_eq]
        decide)

end Example

end ServerlessSystemView

end ProgrammableCaching
