import ProgrammableCaching.Library.Runs
import ProgrammableCaching.Scheduler

/-! The tasks an engine runs, counted by the scheduler and kept in a ledger of
the decisions made and the tasks reported done. `Done` lowers no counter, and an
engine that introduces itself again is counted from zero. -/

namespace ProgrammableCaching

open UnorderedMap Runs

inductive SchedulerEvent
  | introduce (request : SchedulerIntroduceRequest)
  | parseGetViewReply (reply : GetViewReply)
  | tasksScheduled (decisions : SchedulingDecisions)
  | done (task : Task)
  deriving DecidableEq, Repr

/-! ## The ledger -/

/-- The engines that introduced themselves, the decisions passed to
`TasksScheduled`, and which of their tasks have been reported done. -/
structure Ledger where
  introduced : List String := []
  decided : List Decision := []
  finished : List Decision := []
  unfinished : List Decision := []

namespace Ledger

/-- A `Done` settles the oldest unfinished decision for the task. -/
def note (l : Ledger) : SchedulerEvent → Ledger
  | .introduce request => { l with introduced := request.rpcUri :: l.introduced }
  | .parseGetViewReply _ => l
  | .tasksScheduled decisions =>
      { l with decided := l.decided ++ decisions, unfinished := l.unfinished ++ decisions }
  | .done task =>
      match l.unfinished.find? fun d => d.task.id = task.id with
      | some d => { l with finished := l.finished ++ [d], unfinished := l.unfinished.erase d }
      | none => l

/-- The ledger of a run. -/
def of (es : List SchedulerEvent) : Ledger := es.foldl note {}

theorem of_snoc (es : List SchedulerEvent) (e : SchedulerEvent) :
    of (es ++ [e]) = (of es).note e := by
  simp [of]

/-- The decisions of the list that are for the engine. -/
def countFor (engine : String) (decisions : List Decision) : Nat :=
  decisions.countP fun d => d.engine = engine

theorem countFor_append (engine : String) (ds ds' : List Decision) :
    countFor engine (ds ++ ds') = countFor engine ds + countFor engine ds' :=
  List.countP_append ..

/-- A decision of the list counts apart from the others. -/
theorem countFor_erase {d : Decision} {ds : List Decision} (hd : d ∈ ds) (engine : String) :
    countFor engine ds = countFor engine [d] + countFor engine (ds.erase d) := by
  rw [countFor, (List.perm_cons_erase hd).countP_eq]
  simp [countFor, List.countP_cons, Nat.add_comm]

theorem countFor_pos {d : Decision} {ds : List Decision} (hd : d ∈ ds) :
    0 < countFor d.engine ds :=
  List.countP_pos_iff.mpr ⟨d, hd, by simp⟩

/-- Every decision is either finished or not, and is for an introduced engine. -/
structure Balanced (l : Ledger) : Prop where
  balance : ∀ engine, countFor engine l.decided =
    countFor engine l.finished + countFor engine l.unfinished
  introduced : ∀ d ∈ l.unfinished, d.engine ∈ l.introduced

theorem Balanced.done {l : Ledger} (h : l.Balanced) (task : Task) :
    (l.note (.done task)).Balanced := by
  simp only [note]
  cases hfind : l.unfinished.find? fun d => d.task.id = task.id with
  | none => exact h
  | some d =>
      have hd : d ∈ l.unfinished := List.mem_of_find?_eq_some hfind
      constructor
      · intro engine
        have hsplit := countFor_erase hd engine
        have hb := h.balance engine
        simp only [countFor_append]
        omega
      · exact fun d' hd' => h.introduced d' (List.mem_of_mem_erase hd')

end Ledger

namespace Scheduler

def exec (s : Scheduler) : SchedulerEvent → Except Failure Scheduler
  | .introduce request => do
      let (_, s') ← s.introduce request
      return s'
  | .parseGetViewReply reply => do
      let systemView ← s.systemView.parseGetViewReply reply
      return { systemView }
  | .tasksScheduled decisions => return { systemView := s.systemView.tasksScheduled decisions }
  | .done task => return (s.done task).2

/-- The runs considered: an engine that introduces itself again keeps its
maximum, and a list of decisions gives an engine no more tasks than it has room
for. -/
def Admissible (s : Scheduler) : SchedulerEvent → Prop
  | .introduce request => ∀ state,
      s.systemView.engineToState.lookup request.rpcUri = some state →
        state.maximumTasks = request.maximumTasks.toInt
  | .tasksScheduled decisions => ∀ engine, 0 < Ledger.countFor engine decisions →
      ∃ state, s.systemView.engineToState.lookup engine = some state ∧
        (Ledger.countFor engine decisions : Int) ≤ state.maximumTasks - state.runningTasks
  | .parseGetViewReply _ | .done _ => True

def Step (s : Scheduler) (e : SchedulerEvent) (s' : Scheduler) : Prop :=
  s.Admissible e ∧ s.exec e = .ok s'

/-- The engine has a name, a client and an ephemeral manager, and may run tasks. -/
def Equipped (state : EngineState) : Prop :=
  state.name ≠ "" ∧ state.clientName ≠ "" ∧ state.ephemeralName ≠ "" ∧ 0 < state.maximumTasks

/-- The counter of every introduced engine is the number of its decisions less
those whose tasks are done, it stays between zero and the maximum, and an
equipped engine without unfinished tasks is schedulable. -/
def Accounted (l : Ledger) (s : Scheduler) : Prop :=
  ∀ engine ∈ l.introduced, ∃ state, s.systemView.engineToState.lookup engine = some state ∧
    state.runningTasks = (Ledger.countFor engine l.decided : Int) -
      Ledger.countFor engine l.finished ∧
    0 ≤ state.runningTasks ∧ state.runningTasks ≤ state.maximumTasks ∧
    (Equipped state → Ledger.countFor engine l.unfinished = 0 →
      ∀ order, Enumerates order s.systemView.engineToState →
        engine ∈ s.systemView.getSchedulableEngines order)

/-- What a step needs to keep the account: an engine that introduces itself has
no unfinished task and no negative maximum, and no `Done` arrives for a task that
is scheduled. -/
def Sound (l : Ledger) : SchedulerEvent → Prop
  | .introduce request =>
      Ledger.countFor request.rpcUri l.unfinished = 0 ∧ 0 ≤ request.maximumTasks.toInt
  | .done task => ∀ d ∈ l.unfinished, d.task.id ≠ task.id
  | .parseGetViewReply _ | .tasksScheduled _ => True

/-- What ties the ledger to the table of engines, whatever the counters say. -/
structure Tracks (l : Ledger) (s : Scheduler) : Prop where
  balanced : l.Balanced
  known : ∀ engine ∈ l.introduced, engine ∈ s.systemView.engineToState
  others : ∀ engine state, s.systemView.engineToState.lookup engine = some state →
    engine ∉ l.introduced → state.runningTasks = 0 ∧ state.maximumTasks = -1

/-- `Accounted` in terms of the unfinished decisions. -/
def Counted (l : Ledger) (s : Scheduler) : Prop :=
  ∀ engine ∈ l.introduced, ∃ state, s.systemView.engineToState.lookup engine = some state ∧
    state.runningTasks = Ledger.countFor engine l.unfinished ∧
    state.runningTasks ≤ state.maximumTasks

theorem accounted_iff {l : Ledger} {s : Scheduler} (h : l.Balanced) :
    Accounted l s ↔ Counted l s := by
  refine forall_congr' fun engine => forall_congr' fun _ => exists_congr fun state =>
    and_congr_right fun hlookup => ?_
  have hb := h.balance engine
  constructor
  · rintro ⟨hrun, _, hmax, _⟩
    exact ⟨by omega, hmax⟩
  · rintro ⟨hrun, hmax⟩
    refine ⟨by omega, by omega, hmax, ?_⟩
    rintro ⟨hname, hclient, hephemeral, hpos⟩ hnone order ho
    have hidle : state.runningTasks < state.maximumTasks := by omega
    rw [ServerlessSystemView.mem_getSchedulableEngines ho]
    exact ⟨state, hlookup, by
      simp [EngineState.availableToSchedule, hname, hclient, hephemeral, hidle]⟩

/-- Decisions that fit are for introduced engines. -/
theorem Tracks.introduced_of_fit {l : Ledger} {s : Scheduler} (h : Tracks l s)
    {decisions : SchedulingDecisions} (hadm : s.Admissible (.tasksScheduled decisions))
    {engine : String} (hpos : 0 < Ledger.countFor engine decisions) : engine ∈ l.introduced := by
  by_contra hnot
  obtain ⟨state, hlookup, hroom⟩ := hadm engine hpos
  have hdefault := h.others engine state hlookup hnot
  omega

theorem exec_introduce {s s' : Scheduler} {request : SchedulerIntroduceRequest}
    (h : s.exec (.introduce request) = .ok s') :
    s'.systemView.engineToState = s.systemView.engineToState.insert request.rpcUri
      { name := request.rpcUri, maximumTasks := request.maximumTasks.toInt } := by
  obtain ⟨r, hintroduce, hexec⟩ := exceptBind_ok.mp h
  obtain ⟨v, hadd, hv⟩ := exceptBind_ok.mp hintroduce
  cases hv
  cases hexec
  exact (ServerlessSystemView.addExecutionEngine_engines hadd).2

theorem exec_parse {s s' : Scheduler} {reply : GetViewReply}
    (h : s.exec (.parseGetViewReply reply) = .ok s') :
    ServerlessSystemView.SameLoad s.systemView.engineToState s'.systemView.engineToState := by
  obtain ⟨v, hparse, hexec⟩ := exceptBind_ok.mp h
  cases hexec
  exact ServerlessSystemView.parseGetViewReply_sameLoad hparse

/-- Parsing a view changes no counter of an engine that is known. -/
theorem lookup_exec_parse {s s' : Scheduler} {reply : GetViewReply} {engine : String}
    {state : EngineState} (h : s.exec (.parseGetViewReply reply) = .ok s')
    (hlookup : s.systemView.engineToState.lookup engine = some state) :
    ∃ state', s'.systemView.engineToState.lookup engine = some state' ∧
      state'.runningTasks = state.runningTasks ∧ state'.maximumTasks = state.maximumTasks := by
  rcases exec_parse h engine with hsame | ⟨hnone, _⟩
  · rw [hlookup, Option.map_some, Option.map_eq_some_iff] at hsame
    obtain ⟨state', hlookup', hloads⟩ := hsame
    simp only [ServerlessSystemView.load, Prod.mk.injEq] at hloads
    exact ⟨state', hlookup', hloads.2⟩
  · rw [hlookup] at hnone
    cases hnone

theorem exec_tasksScheduled {s s' : Scheduler} {decisions : SchedulingDecisions}
    (h : s.exec (.tasksScheduled decisions) = .ok s') :
    s' = { systemView := s.systemView.tasksScheduled decisions } :=
  (Except.ok.inj h).symm

/-! ## The step -/

theorem Ledger.introduced_note_done (l : Ledger) (task : Task) :
    (l.note (.done task)).introduced = l.introduced := by
  simp only [Ledger.note]
  split <;> rfl

section Step

variable {l : Ledger} {s s' : Scheduler}

theorem Tracks.introduce {request : SchedulerIntroduceRequest} (h : Tracks l s)
    (hexec : s.exec (.introduce request) = .ok s') : Tracks (l.note (.introduce request)) s' := by
  have htable := exec_introduce hexec
  refine ⟨⟨h.balanced.balance, fun d hd => ?_⟩, fun engine hmem => ?_,
    fun engine state hlookup hnot => ?_⟩
  · exact List.mem_cons_of_mem _ (h.balanced.introduced d hd)
  · rw [htable, Finmap.mem_insert]
    exact (List.mem_cons.mp hmem).imp_right (h.known engine)
  · have hne : engine ≠ request.rpcUri := fun heq => hnot (by simp [Ledger.note, heq])
    rw [htable, lookup_insert_ite, if_neg hne] at hlookup
    exact h.others engine state hlookup fun hmem => hnot (List.mem_cons_of_mem _ hmem)

theorem Tracks.parse {reply : GetViewReply} (h : Tracks l s)
    (hexec : s.exec (.parseGetViewReply reply) = .ok s') : Tracks l s' := by
  refine ⟨h.balanced, fun engine hmem => ?_, fun engine state hlookup hnot => ?_⟩
  · obtain ⟨state, hs⟩ := Finmap.mem_iff.mp (h.known engine hmem)
    obtain ⟨state', hs', _⟩ := lookup_exec_parse hexec hs
    exact mem_of_lookup hs'
  · -- an engine that nobody introduced was there before or has just been made
    rcases exec_parse hexec engine with hsame | ⟨_, hnew⟩
    · rw [hlookup, Option.map_some, eq_comm, Option.map_eq_some_iff] at hsame
      obtain ⟨old, hold, hloads⟩ := hsame
      simp only [ServerlessSystemView.load, Prod.mk.injEq] at hloads
      rw [← hloads.2.1, ← hloads.2.2]
      exact h.others engine old hold hnot
    · rw [hlookup, Option.map_some] at hnew
      simp only [ServerlessSystemView.load, Option.some.injEq, Prod.mk.injEq] at hnew
      exact hnew.2

theorem Tracks.tasksScheduled {decisions : SchedulingDecisions} (h : Tracks l s)
    (hadm : s.Admissible (.tasksScheduled decisions)) :
    Tracks (l.note (.tasksScheduled decisions))
      { systemView := s.systemView.tasksScheduled decisions } := by
  have hfit : ∀ engine, 0 < Ledger.countFor engine decisions → engine ∈ l.introduced :=
    fun _ => h.introduced_of_fit hadm
  refine ⟨⟨fun engine => ?_, fun d hd => ?_⟩, fun engine hmem => ?_,
    fun engine state hlookup hnot => ?_⟩
  · have hb := h.balanced.balance engine
    simp only [Ledger.note, Ledger.countFor_append]
    omega
  · rcases List.mem_append.mp hd with hold | hnew
    · exact h.balanced.introduced d hold
    · exact hfit d.engine (Ledger.countFor_pos hnew)
  · rw [mem_iff_isSome, ServerlessSystemView.lookup_tasksScheduled, if_pos]
    · rfl
    · exact .inr (h.known engine hmem)
  · have hnone : Ledger.countFor engine decisions = 0 :=
      Nat.eq_zero_of_not_pos fun hpos => hnot (hfit engine hpos)
    have hany : ¬ decisions.any (·.engine = engine) := by
      simpa [Ledger.countFor, List.countP_eq_zero] using hnone
    rw [ServerlessSystemView.lookup_tasksScheduled] at hlookup
    split at hlookup
    · rename_i hmem
      obtain ⟨old, hold⟩ := Finmap.mem_iff.mp (hmem.resolve_left hany)
      cases hlookup
      simp only [Ledger.countFor] at hnone
      simpa [entry_of_lookup _ hold, hnone] using h.others engine old hold hnot
    · cases hlookup

theorem Tracks.done (h : Tracks l s) (task : Task) : Tracks (l.note (.done task)) s := by
  refine ⟨h.balanced.done task, fun engine hmem => ?_, fun engine state hlookup hnot => ?_⟩
  · exact h.known engine (by rwa [Ledger.introduced_note_done] at hmem)
  · exact h.others engine state hlookup (by rwa [Ledger.introduced_note_done] at hnot)

theorem tracks_step {e : SchedulerEvent} (h : Tracks l s) (hstep : Step s e s') :
    Tracks (l.note e) s' := by
  obtain ⟨hadm, hexec⟩ := hstep
  cases e with
  | introduce request => exact h.introduce hexec
  | parseGetViewReply reply => exact h.parse hexec
  | tasksScheduled decisions =>
      obtain rfl := exec_tasksScheduled hexec
      exact h.tasksScheduled hadm
  | done task =>
      cases hexec
      exact h.done task

/-- An engine that introduces itself is counted from zero. -/
theorem Counted.introduce_iff {request : SchedulerIntroduceRequest} (h : Counted l s)
    (hexec : s.exec (.introduce request) = .ok s') :
    Counted (l.note (.introduce request)) s' ↔ Sound l (.introduce request) := by
  have htable := exec_introduce hexec
  simp only [Counted, htable, lookup_insert_ite, Sound]
  constructor
  · intro hnew
    obtain ⟨state, hlookup, hrun, hmax⟩ := hnew request.rpcUri (by simp [Ledger.note])
    rw [if_pos rfl, Option.some.injEq] at hlookup
    subst hlookup
    exact ⟨by simpa [Ledger.note] using hrun.symm, hmax⟩
  · rintro ⟨hnone, hpos⟩ engine hmem
    split
    · rename_i heq
      subst heq
      exact ⟨_, rfl, by simp [Ledger.note, hnone], hpos⟩
    · rename_i hne
      exact h engine ((List.mem_cons.mp hmem).resolve_left hne)

theorem Counted.parse {reply : GetViewReply} (h : Counted l s)
    (hexec : s.exec (.parseGetViewReply reply) = .ok s') : Counted l s' := by
  intro engine hmem
  obtain ⟨state, hlookup, hrun, hmax⟩ := h engine hmem
  obtain ⟨state', hlookup', hrun', hmax'⟩ := lookup_exec_parse hexec hlookup
  exact ⟨state', hlookup', hrun'.trans hrun, by omega⟩

theorem Counted.tasksScheduled {decisions : SchedulingDecisions} (h : Counted l s)
    (htracks : Tracks l s) (hadm : s.Admissible (.tasksScheduled decisions)) :
    Counted (l.note (.tasksScheduled decisions))
      { systemView := s.systemView.tasksScheduled decisions } := by
  intro engine hmem
  obtain ⟨state, hlookup, hrun, hmax⟩ := h engine hmem
  refine ⟨_, by
    rw [ServerlessSystemView.lookup_tasksScheduled, if_pos (.inr (htracks.known engine hmem)),
      entry_of_lookup _ hlookup], ?_, ?_⟩
  · show state.runningTasks + (Ledger.countFor engine decisions : Int) = _
    simp only [Ledger.note, Ledger.countFor_append]
    omega
  · show state.runningTasks + (Ledger.countFor engine decisions : Int) ≤ state.maximumTasks
    rcases Nat.eq_zero_or_pos (Ledger.countFor engine decisions) with hzero | hpos
    · omega
    · obtain ⟨state', hlookup', hroom⟩ := hadm engine hpos
      rw [hlookup, Option.some.injEq] at hlookup'
      subst hlookup'
      omega

/-- `Done` settles a decision in the ledger and leaves the counters alone. -/
theorem Counted.done_iff (h : Counted l s) (hbalanced : l.Balanced) (task : Task) :
    Counted (l.note (.done task)) s ↔ Sound l (.done task) := by
  cases hfind : l.unfinished.find? fun d => d.task.id = task.id with
  | none =>
      have hnone : ∀ d ∈ l.unfinished, d.task.id ≠ task.id := by
        simpa [List.find?_eq_none] using hfind
      have hsame : l.note (.done task) = l := by simp [Ledger.note, hfind]
      rw [hsame]
      exact iff_of_true h hnone
  | some d =>
      have hd : d ∈ l.unfinished := List.mem_of_find?_eq_some hfind
      have hid : d.task.id = task.id := by simpa using List.find?_some hfind
      refine iff_of_false (fun hnew => ?_) fun hall => hall d hd hid
      -- one decision of the engine is finished, and the counter did not move
      have hmem := hbalanced.introduced d hd
      obtain ⟨state, hlookup, hrun, _⟩ := h d.engine hmem
      obtain ⟨state', hlookup', hrun', _⟩ :=
        hnew d.engine (by rwa [Ledger.introduced_note_done])
      rw [hlookup, Option.some.injEq] at hlookup'
      subst hlookup'
      have hsplit := Ledger.countFor_erase hd d.engine
      have hone : Ledger.countFor d.engine [d] = 1 := by simp [Ledger.countFor]
      simp only [Ledger.note, hfind] at hrun'
      omega

/-- A step keeps the account exactly when it is sound. -/
theorem accounted_step_iff {e : SchedulerEvent} (h : Tracks l s) (hacc : Accounted l s)
    (hstep : Step s e s') : Accounted (l.note e) s' ↔ Sound l e := by
  have hbal' := (tracks_step h hstep).balanced
  obtain ⟨hadm, hexec⟩ := hstep
  rw [accounted_iff h.balanced] at hacc
  rw [accounted_iff hbal']
  cases e with
  | introduce request => exact Counted.introduce_iff hacc hexec
  | parseGetViewReply reply => exact iff_of_true (Counted.parse hacc hexec) trivial
  | tasksScheduled decisions =>
      obtain rfl := exec_tasksScheduled hexec
      exact iff_of_true (Counted.tasksScheduled hacc h hadm) trivial
  | done task =>
      cases hexec
      exact Counted.done_iff hacc h.balanced task

end Step

/-! ## Whole runs -/

theorem tracks_of_reaches {s : Scheduler} {es : List SchedulerEvent} (h : Reaches Step {} es s) :
    Tracks (Ledger.of es) s := by
  induction h with
  | nil =>
      exact ⟨⟨fun _ => rfl, fun _ hd => absurd hd List.not_mem_nil⟩,
        fun _ hmem => absurd hmem List.not_mem_nil,
        fun _ _ hlookup => absurd (mem_of_lookup hlookup) Finmap.notMem_empty⟩
  | snoc _ hstep ih =>
      rw [Ledger.of_snoc]
      exact tracks_step ih hstep

theorem step_deterministic : Deterministic Step := by
  rintro s e s₁ s₂ ⟨_, h₁⟩ ⟨_, h₂⟩
  exact Except.ok.inj (h₁.symm.trans h₂)

/-- **When the capacity account is exact.** In a run of introductions, parsed
views, scheduled decisions that fit and `Done` messages, the counters account
for every introduced engine in every state reached, if and only if no `Done`
ever arrives for a scheduled task that is not done yet, and every engine that
introduces itself has no unfinished task and no negative maximum. -/
theorem accounted_throughout_iff {es : List SchedulerEvent} {s : Scheduler}
    (h : Reaches Step {} es s) :
    Throughout (fun es' => ∀ t, Reaches Step {} es' t → Accounted (Ledger.of es') t) es ↔
      EveryStep (fun es' e => Sound (Ledger.of es') e) es := by
  refine throughout_iff_everyStep ?_ ?_ h.throughout
  · exact fun _ _ _ hmem => absurd hmem List.not_mem_nil
  · rintro es e ⟨u, hu⟩ hacc
    obtain ⟨t, ht, hstep⟩ := Reaches.snoc_iff.mp hu
    have hiff := accounted_step_iff (tracks_of_reaches ht) (hacc t ht) hstep
    rw [← hiff, ← Ledger.of_snoc]
    constructor
    · exact fun hP => hP u hu
    · intro hP u' hu'
      obtain rfl := hu.functional step_deterministic hu'
      exact hP

section Example

/-- An engine with room for one task is given one. -/
def oneTask : List SchedulerEvent :=
  [.introduce { rpcUri := "h:3", clientRpcUri := "h:2", maximumTasks := 1 },
    .tasksScheduled [{ engine := "h:3", task := { id := "t" } }]]

def busy : Scheduler where
  systemView := {
    ephemeral := .ephemeral
    persistant := .fakePersistant
    clientUriToEngine := (∅ : UMap String String).insert "h:2" "h:3"
    engineToState := ((∅ : UMap String EngineState).insert "h:3"
      { name := "h:3", maximumTasks := 1 }).insert "h:3"
      { name := "h:3", runningTasks := 1, maximumTasks := 1 }
    hostnameToEngine := (∅ : UMap String String).insert "h" "h:3" }

theorem reaches_oneTask : Reaches Step {} oneTask busy := by
  refine .cons ⟨?_, rfl⟩ (.cons ⟨?_, rfl⟩ .nil)
  · simp [Admissible]
  · intro engine hpos
    have hengine : engine = "h:3" := by
      by_contra hne
      simp [Ledger.countFor, Ne.symm hne] at hpos
    subst hengine
    exact ⟨{ name := "h:3", maximumTasks := 1 }, by decide, by decide⟩

theorem accounted_throughout_iff_oneTask :
    Throughout (fun es' => ∀ t, Reaches Step {} es' t → Accounted (Ledger.of es') t) oneTask ↔
      EveryStep (fun es' e => Sound (Ledger.of es') e) oneTask :=
  accounted_throughout_iff reaches_oneTask

/-- When the task is done its engine still counts it. -/
theorem done_task_still_counted :
    Reaches Step {} (oneTask ++ [.done { id := "t" }]) busy ∧
      ¬ Accounted (Ledger.of (oneTask ++ [.done { id := "t" }])) busy := by
  refine ⟨.snoc reaches_oneTask ⟨trivial, rfl⟩, fun hacc => ?_⟩
  obtain ⟨state, hlookup, hrun, _⟩ := hacc "h:3" (by decide)
  have hbusy : busy.systemView.engineToState.lookup "h:3" =
      some { name := "h:3", runningTasks := 1, maximumTasks := 1 } := by decide
  rw [hbusy, Option.some.injEq] at hlookup
  subst hlookup
  exact absurd hrun (by decide)

end Example

end Scheduler

end ProgrammableCaching
