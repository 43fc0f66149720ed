import Mathlib.Data.List.Sort
import ProgrammableCaching.SchedulableEngines
import ProgrammableCaching.Scheduler

/-! `Scheduler::Schedule`: shortest jobs first, on the engines with free slots. Each decision
is filled in on a copy of the new element of the output, so the element keeps its defaults. -/

namespace ProgrammableCaching

open UnorderedMap Runs

structure JobData where
  remainingTasks : Int
  deriving DecidableEq, Repr

structure TaskData where
  t : Task
  deriving DecidableEq, Repr

/-- The two lookups in the job view, whose bodies are empty. -/
structure JobView where
  getJobData : String → JobData
  getTaskData : String → TaskData

/-- The order in which the tables of the view are traversed. -/
structure SystemOrder where
  engines : List String
  persistantKeys : List String
  deriving DecidableEq, Repr

namespace ServerlessSystemView

def TraversedBy (v : ServerlessSystemView) (o : SystemOrder) : Prop :=
  Enumerates o.engines v.engineToState ∧ Enumerates o.persistantKeys v.persistantKeyToMgr

instance (v : ServerlessSystemView) (o : SystemOrder) : Decidable (v.TraversedBy o) :=
  inferInstanceAs (Decidable (_ ∧ _))

end ServerlessSystemView

/-- `std::sort`: a permutation without inversions, the order of equal elements left open. -/
structure Sorts {α : Type} (less : α → α → Bool) (sort : List α → List α) : Prop where
  perm : ∀ l, (sort l).Perm l
  sorted : ∀ l, (sort l).Pairwise fun a b => less b a = false

namespace Scheduler

def compare (i j : String × Int) : Bool := i.2 < j.2

section Schedule

variable (v : ServerlessSystemView) (o : SystemOrder) (jobView : JobView)

/-- The loop body on the decision `d`, from its task to its engine. -/
def fillDecision (engine task : String) (d : Decision) : Except Failure Decision := do
  let d := { d with task := (jobView.getTaskData task).t }
  let d ←
    if d.task.inputFile ≠ "" then do
      let name ← v.getPersistentMgrForFile d.task.inputFile
      pure { d with rules := d.rules ++ [{
        opType := .get
        key := d.task.inputFile
        action := [.get { key := d.task.inputFile, mgr := { name } }] }] }
    else pure d
  let d ←
    if d.task.outputFile ≠ "" then do
      let name ← v.getPersistentMgrForPut o.persistantKeys d.task.outputFile
      pure { d with rules := d.rules ++ [{
        opType := .put
        key := d.task.outputFile
        action := [.put { key := d.task.outputFile, mgr := { name } }] }] }
    else pure d
  return { d with engine }

/-- `auto d` is a copy of the new last element, so what is filled in is lost. -/
def emplaceDecision (engine task : String) (decisions : SchedulingDecisions) :
    Except Failure SchedulingDecisions := do
  let decisions := decisions ++ [({} : Decision)]
  let d := decisions.getLast?.getD {}
  let _d ← fillDecision v o jobView engine task d
  return decisions

/-- The loop over the free slots of an engine, from the task at `taskIdx` on. -/
def fillSlots (taskSizePairs : List (String × Int)) (engine : String) :
    (available : Nat) → Nat × SchedulingDecisions → Except Failure (Nat × SchedulingDecisions)
  | 0, (taskIdx, decisions) => return (taskIdx, decisions)
  | available + 1, (taskIdx, decisions) =>
      match taskSizePairs[taskIdx]? with
      | none => return (taskIdx, decisions)
      | some pair => do
          let decisions ← emplaceDecision v o jobView engine pair.1 decisions
          fillSlots taskSizePairs engine available (taskIdx + 1, decisions)

/-- The loop body for one schedulable engine. -/
def fillEngine (taskSizePairs : List (String × Int)) (st : Nat × SchedulingDecisions)
    (engine : String) : Except Failure (Nat × SchedulingDecisions) := do
  let s ← v.getEngineState engine
  let available := s.maximumTasks - s.runningTasks
  fillSlots v o jobView taskSizePairs engine available.toNat st

def schedule (sort : List (String × Int) → List (String × Int)) (pendingTasks : List String)
    (decisions : SchedulingDecisions) : Except Failure SchedulingDecisions := do
  let taskSizePairs :=
    sort (pendingTasks.map fun task => (task, (jobView.getJobData task).remainingTasks))
  let (_, decisions) ← (v.getSchedulableEngines o.engines).foldlM
    (fillEngine v o jobView taskSizePairs) (0, decisions)
  return decisions

/-! ## What a schedule should be -/

/-- The decision reads its input file from the manager that has it, and writes its output file
to the manager chosen for it. -/
structure Ruled (d : Decision) : Prop where
  input : d.task.inputFile ≠ "" → ∃ name, v.getPersistentMgrForFile d.task.inputFile = .ok name ∧
    { opType := .get
      key := d.task.inputFile
      action := [.get { key := d.task.inputFile, mgr := { name } }] } ∈ d.rules
  output : d.task.outputFile ≠ "" → ∃ name,
    v.getPersistentMgrForPut o.persistantKeys d.task.outputFile = .ok name ∧
    { opType := .put
      key := d.task.outputFile
      action := [.put { key := d.task.outputFile, mgr := { name } }] } ∈ d.rules

/-- The decisions are for distinct pending tasks and for engines with room for them, no task
left out belongs to a shorter job, and the rules are those of the tasks. -/
structure ShortestJobFirst (pendingTasks : List String) (decisions : SchedulingDecisions) :
    Prop where
  engine : ∀ d ∈ decisions, d.engine ∈ v.getSchedulableEngines o.engines
  room : ∀ d ∈ decisions, ∀ s, v.getEngineState d.engine = .ok s →
    (decisions.countP (·.engine = d.engine) : Int) ≤ s.maximumTasks - s.runningTasks
  task : ∀ d ∈ decisions, ∃ id ∈ pendingTasks, d.task = (jobView.getTaskData id).t
  distinct : (decisions.map (·.task.id)).Nodup
  shortest : ∀ d ∈ decisions, ∀ id ∈ pendingTasks, id ∉ decisions.map (·.task.id) →
    (jobView.getJobData d.task.id).remainingTasks ≤ (jobView.getJobData id).remainingTasks
  rules : ∀ d ∈ decisions, Ruled v o d

end Schedule

/-! ## What the code returns -/

section Loops

variable {v : ServerlessSystemView} {o : SystemOrder} {jobView : JobView}

/-- The lookups of persistent managers for the files of the task succeed. -/
structure Found (v : ServerlessSystemView) (o : SystemOrder) (task : Task) : Prop where
  input : task.inputFile ≠ "" → ∃ name, v.getPersistentMgrForFile task.inputFile = .ok name
  output : task.outputFile ≠ "" →
    ∃ name, v.getPersistentMgrForPut o.persistantKeys task.outputFile = .ok name

/-- What is filled in on the copy is right. -/
theorem fillDecision_spec {task : String} (h : Found v o (jobView.getTaskData task).t)
    (engine : String) : ∃ d, fillDecision v o jobView engine task {} = .ok d ∧
      d.engine = engine ∧ d.task = (jobView.getTaskData task).t ∧ Ruled v o d := by
  by_cases hinput : (jobView.getTaskData task).t.inputFile = ""
  · by_cases houtput : (jobView.getTaskData task).t.outputFile = ""
    · refine ⟨{ engine, task := (jobView.getTaskData task).t }, ?_, rfl, rfl,
        fun hne => absurd hinput hne, fun hne => absurd houtput hne⟩
      simp [fillDecision, hinput, houtput, pure, Except.pure, bind, Except.bind]
    · obtain ⟨name, hname⟩ := h.output houtput
      refine ⟨{ engine, task := (jobView.getTaskData task).t, rules := [{
          opType := .put
          key := (jobView.getTaskData task).t.outputFile
          action := [.put { key := (jobView.getTaskData task).t.outputFile, mgr := { name } }] }] },
        ?_, rfl, rfl, fun hne => absurd hinput hne, fun _ => ⟨name, hname, by simp⟩⟩
      simp [fillDecision, hinput, houtput, hname, pure, Except.pure, bind, Except.bind]
  · obtain ⟨name, hname⟩ := h.input hinput
    by_cases houtput : (jobView.getTaskData task).t.outputFile = ""
    · refine ⟨{ engine, task := (jobView.getTaskData task).t, rules := [{
          opType := .get
          key := (jobView.getTaskData task).t.inputFile
          action := [.get { key := (jobView.getTaskData task).t.inputFile, mgr := { name } }] }] },
        ?_, rfl, rfl, fun _ => ⟨name, hname, by simp⟩, fun hne => absurd houtput hne⟩
      simp [fillDecision, hinput, houtput, hname, pure, Except.pure, bind, Except.bind]
    · obtain ⟨name', hname'⟩ := h.output houtput
      refine ⟨{ engine, task := (jobView.getTaskData task).t, rules := [{
          opType := .get
          key := (jobView.getTaskData task).t.inputFile
          action := [.get { key := (jobView.getTaskData task).t.inputFile, mgr := { name } }] }, {
          opType := .put
          key := (jobView.getTaskData task).t.outputFile
          action := [.put {
            key := (jobView.getTaskData task).t.outputFile, mgr := { name := name' } }] }] },
        ?_, rfl, rfl, fun _ => ⟨name, hname, by simp⟩, fun _ => ⟨name', hname', by simp⟩⟩
      simp [fillDecision, hinput, houtput, hname, hname', pure, Except.pure, bind, Except.bind]

theorem emplaceDecision_eq {engine task : String} (h : Found v o (jobView.getTaskData task).t)
    (decisions : SchedulingDecisions) :
    emplaceDecision v o jobView engine task decisions = .ok (decisions ++ [({} : Decision)]) := by
  obtain ⟨d, hd, _⟩ := fillDecision_spec h engine
  simp [emplaceDecision, hd, pure, Except.pure, bind, Except.bind]

/-- Each free slot takes the next task while there is one, and adds an empty decision. -/
theorem fillSlots_eq {taskSizePairs : List (String × Int)} {engine : String}
    {available taskIdx : Nat} (h : ∀ pair ∈ (taskSizePairs.drop taskIdx).take available,
      Found v o (jobView.getTaskData pair.1).t) (decisions : SchedulingDecisions) :
    fillSlots v o jobView taskSizePairs engine available (taskIdx, decisions) =
      .ok (taskIdx + min available (taskSizePairs.length - taskIdx),
        decisions ++ List.replicate (min available (taskSizePairs.length - taskIdx))
          ({} : Decision)) := by
  induction available generalizing taskIdx decisions with
  | zero => simp [fillSlots, pure, Except.pure]
  | succ available ih =>
      cases hpair : taskSizePairs[taskIdx]? with
      | none =>
          have hend : taskSizePairs.length - taskIdx = 0 := by
            have := List.getElem?_eq_none_iff.mp hpair
            omega
          simp [fillSlots, hpair, hend, pure, Except.pure]
      | some pair =>
          obtain ⟨hlt, hget⟩ := List.getElem?_eq_some_iff.mp hpair
          rw [List.drop_eq_getElem_cons hlt, hget, List.take_succ_cons,
            List.forall_mem_cons] at h
          have hcount : min (available + 1) (taskSizePairs.length - taskIdx) =
              1 + min available (taskSizePairs.length - (taskIdx + 1)) := by omega
          simp only [fillSlots, hpair, emplaceDecision_eq h.1, bind, Except.bind]
          rw [ih h.2, hcount, List.replicate_add]
          simp [Nat.add_assoc]

/-- The free slots of the engines together. -/
def freeSlots (v : ServerlessSystemView) : List String → Nat
  | [] => 0
  | engine :: engines =>
      ((v.stateOf engine).maximumTasks - (v.stateOf engine).runningTasks).toNat +
        freeSlots v engines

/-- An engine that takes tasks up to the end of the list leaves none to the next one. -/
theorem drop_taken (taskSizePairs : List (String × Int)) (taskIdx slots : Nat) :
    taskSizePairs.drop (taskIdx + min slots (taskSizePairs.length - taskIdx)) =
      (taskSizePairs.drop taskIdx).drop slots := by
  rw [List.drop_drop]
  rcases Nat.le_total slots (taskSizePairs.length - taskIdx) with hle | hle
  · rw [Nat.min_eq_left hle]
  · rw [Nat.min_eq_right hle, List.drop_eq_nil_of_le (by omega),
      List.drop_eq_nil_of_le (by omega)]

theorem foldlM_fillEngine_eq {taskSizePairs : List (String × Int)} {engines : List String}
    {taskIdx : Nat} (h : ∀ pair ∈ (taskSizePairs.drop taskIdx).take (freeSlots v engines),
      Found v o (jobView.getTaskData pair.1).t)
    (hengines : ∀ engine ∈ engines, v.getEngineState engine = .ok (v.stateOf engine))
    (decisions : SchedulingDecisions) :
    engines.foldlM (fillEngine v o jobView taskSizePairs) (taskIdx, decisions) =
      .ok (taskIdx + min (freeSlots v engines) (taskSizePairs.length - taskIdx),
        decisions ++ List.replicate (min (freeSlots v engines) (taskSizePairs.length - taskIdx))
          ({} : Decision)) := by
  induction engines generalizing taskIdx decisions with
  | nil => simp [freeSlots, pure, Except.pure]
  | cons engine engines ih =>
      have hcount : ∀ slots : Nat, min slots (taskSizePairs.length - taskIdx) +
          min (freeSlots v engines) (taskSizePairs.length -
            (taskIdx + min slots (taskSizePairs.length - taskIdx))) =
          min (slots + freeSlots v engines) (taskSizePairs.length - taskIdx) := by
        intro slots
        omega
      rw [freeSlots, List.take_add, List.forall_mem_append] at h
      rw [List.foldlM_cons, fillEngine, hengines engine (by simp)]
      simp only [bind, Except.bind, fillSlots_eq h.1]
      rw [ih (by rw [drop_taken]; exact h.2) fun engine' he => hengines engine' (by simp [he]),
        List.append_assoc, ← List.replicate_add, Nat.add_assoc, hcount, freeSlots]

/-- The tasks that find a free slot: the first ones of the sorted list. -/
def pickedTasks (v : ServerlessSystemView) (o : SystemOrder) (jobView : JobView)
    (sort : List (String × Int) → List (String × Int)) (pendingTasks : List String) :
    List String :=
  ((sort (pendingTasks.map fun task => (task, (jobView.getJobData task).remainingTasks))).take
    (freeSlots v (v.getSchedulableEngines o.engines))).map Prod.fst

theorem getEngineState_of_schedulable (ho : Enumerates o.engines v.engineToState) {engine : String}
    (h : engine ∈ v.getSchedulableEngines o.engines) :
    v.getEngineState engine = .ok (v.stateOf engine) := by
  obtain ⟨state, hlookup, _⟩ := (ServerlessSystemView.mem_getSchedulableEngines ho engine).mp h
  simp [ServerlessSystemView.getEngineState, ServerlessSystemView.stateOf, entry, hlookup]

/-- **What `Schedule` returns.** When the lookups of managers for the picked tasks succeed it adds
an empty decision for each of them. -/
theorem schedule_eq {sort : List (String × Int) → List (String × Int)}
    (hsort : ∀ l, (sort l).Perm l) (ho : Enumerates o.engines v.engineToState)
    {pendingTasks : List String}
    (h : ∀ task ∈ pickedTasks v o jobView sort pendingTasks,
      Found v o (jobView.getTaskData task).t) (decisions : SchedulingDecisions) :
    schedule v o jobView sort pendingTasks decisions = .ok (decisions ++
      List.replicate (min (freeSlots v (v.getSchedulableEngines o.engines)) pendingTasks.length)
        ({} : Decision)) := by
  have hpairs : ∀ pair ∈ ((sort (pendingTasks.map fun task =>
      (task, (jobView.getJobData task).remainingTasks))).drop 0).take
        (freeSlots v (v.getSchedulableEngines o.engines)),
      Found v o (jobView.getTaskData pair.1).t :=
    fun pair hpair => h pair.1 (List.mem_map_of_mem hpair)
  simp only [schedule, (hsort _).length_eq, bind, Except.bind, pure, Except.pure,
    foldlM_fillEngine_eq hpairs fun _ => getEngineState_of_schedulable ho]
  simp

/-- Only pending tasks are picked. -/
theorem mem_of_mem_pickedTasks {sort : List (String × Int) → List (String × Int)}
    (hsort : ∀ l, (sort l).Perm l) {pendingTasks : List String} {task : String}
    (h : task ∈ pickedTasks v o jobView sort pendingTasks) : task ∈ pendingTasks := by
  obtain ⟨pair, hpair, rfl⟩ := List.mem_map.mp h
  obtain ⟨task, htask, rfl⟩ := List.mem_map.mp ((hsort _).mem_iff.mp (List.mem_of_mem_take hpair))
  exact htask

theorem freeSlots_pos {engines : List String} {engine : String} (hmem : engine ∈ engines)
    (havailable : (v.stateOf engine).availableToSchedule) : 0 < freeSlots v engines := by
  have hroom : (v.stateOf engine).runningTasks < (v.stateOf engine).maximumTasks := by
    simp only [EngineState.availableToSchedule, Bool.and_eq_true, decide_eq_true_eq] at havailable
    exact havailable.1.1.1
  induction engines with
  | nil => cases hmem
  | cons engine' engines ih =>
      rw [freeSlots]
      rcases List.mem_cons.mp hmem with rfl | hmem
      · omega
      · have hrest := ih hmem
        omega

/-- The empty decision is for no engine. -/
theorem empty_not_schedulable {storage persistant : StorageName} {calls : List ViewCall}
    (hrun : Reaches ServerlessSystemView.Step
      { ephemeral := storage, persistant := persistant } calls v)
    (ho : Enumerates o.engines v.engineToState) : "" ∉ v.getSchedulableEngines o.engines := by
  rw [ServerlessSystemView.mem_getSchedulableEngines_iff ho]
  simp [EngineState.availableToSchedule, ServerlessSystemView.name_stateOf_empty hrun]

/-- **When `Schedule` does its work.** The decisions it returns are those of a shortest-job-first
schedule if and only if there is no schedulable engine or no pending task. -/
theorem schedule_iff {storage persistant : StorageName} {calls : List ViewCall}
    (hrun : Reaches ServerlessSystemView.Step
      { ephemeral := storage, persistant := persistant } calls v)
    (ho : v.TraversedBy o) {sort : List (String × Int) → List (String × Int)}
    (hsort : Sorts compare sort) {pendingTasks : List String}
    (h : ∀ task ∈ pendingTasks, Found v o (jobView.getTaskData task).t) :
    (∃ decisions, schedule v o jobView sort pendingTasks [] = .ok decisions ∧
      ShortestJobFirst v o jobView pendingTasks decisions) ↔
      v.getSchedulableEngines o.engines = [] ∨ pendingTasks = [] := by
  have hreturns := schedule_eq hsort.perm ho.1
    (fun task htask => h task (mem_of_mem_pickedTasks hsort.perm htask)) []
  constructor
  · rintro ⟨decisions, hok, hdecisions⟩
    obtain rfl := Except.ok.inj (hreturns.symm.trans hok)
    by_contra hboth
    obtain ⟨hengines, hpending⟩ := not_or.mp hboth
    obtain ⟨engine, hengine⟩ := List.exists_mem_of_ne_nil _ hengines
    have hslots : 0 < freeSlots v (v.getSchedulableEngines o.engines) :=
      freeSlots_pos hengine ((ServerlessSystemView.mem_getSchedulableEngines_iff ho.1).mp hengine)
    have htasks : 0 < pendingTasks.length := List.length_pos_of_ne_nil hpending
    -- the first free slot has taken a task, and its decision names no engine
    refine empty_not_schedulable hrun ho.1 (hdecisions.engine {} ?_)
    rw [List.nil_append, List.mem_replicate]
    exact ⟨by omega, rfl⟩
  · intro hnone
    have hzero :
        min (freeSlots v (v.getSchedulableEngines o.engines)) pendingTasks.length = 0 := by
      rcases hnone with hengines | hpending
      · simp [hengines, freeSlots]
      · simp [hpending]
    rw [hzero] at hreturns
    refine ⟨[], hreturns, ?_⟩
    constructor <;> simp

end Loops

section Example

def bySize : List (String × Int) → List (String × Int) :=
  List.insertionSort fun i j => i.2 ≤ j.2

theorem sorts_bySize : Sorts compare bySize where
  perm := List.perm_insertionSort _
  sorted l := by
    have hsorted := List.pairwise_insertionSort (fun i j : String × Int => i.2 ≤ j.2) l
    exact hsorted.imp fun hle => by simpa [compare] using hle

/-- An engine with one free slot, and a persistent manager with the file `in`. -/
def oneSlotCalls : List ViewCall :=
  [.addExecutionEngine "h:3" "h:2" 1,
    .parseGetViewReply {
      view := [{ name := "manager:EPHEMERAL:MANAGED:h", uri := "h:1" },
        { name := "manager:FAKE_PERSISTANT:MANAGED:p", uri := "p:1", key := ["in"] }]
      client := [{ name := "client:h", uri := "h:2" }] }]

def oneSlot : ServerlessSystemView where
  ephemeral := .ephemeral
  persistant := .fakePersistant
  clientUriToEngine := (∅ : UMap String String).insert "h:2" "h:3"
  engineToState := (((∅ : UMap String EngineState).insert "h:3"
    { name := "h:3", maximumTasks := 1 }).insert "h:3"
    { name := "h:3", ephemeralName := "manager:EPHEMERAL:MANAGED:h", maximumTasks := 1 }).insert
    "h:3" { name := "h:3", clientName := "client:h",
            ephemeralName := "manager:EPHEMERAL:MANAGED:h", maximumTasks := 1 }
  hostnameToEngine := ((((∅ : UMap String String).insert "h" "h:3").insert "h" "h:3").insert
    "p" "").insert "h" "h:3"
  mgrToKeys := ((∅ : UMap String (List String)).insert "manager:EPHEMERAL:MANAGED:h" []).insert
    "manager:FAKE_PERSISTANT:MANAGED:p" ["in"]
  persistantKeyToMgr :=
    (∅ : UMap String String).insert "in" "manager:FAKE_PERSISTANT:MANAGED:p"

def oneSlotOrder : SystemOrder := ⟨["h:3"], ["in"]⟩

/-- Every task reads `in` and writes `out`. -/
def copyTasks : JobView where
  getJobData _ := ⟨1⟩
  getTaskData id := ⟨{ id, inputFile := "in", outputFile := "out" }⟩

theorem reaches_oneSlot : Reaches ServerlessSystemView.Step
    { ephemeral := .ephemeral, persistant := .fakePersistant } oneSlotCalls oneSlot :=
  .cons rfl (.cons rfl .nil)

theorem found_oneSlot (task : String) :
    Found oneSlot oneSlotOrder (copyTasks.getTaskData task).t :=
  ⟨fun _ => ⟨_, rfl⟩, fun _ => ⟨_, rfl⟩⟩

theorem schedule_iff_oneSlot :
    (∃ decisions, schedule oneSlot oneSlotOrder copyTasks bySize ["t"] [] = .ok decisions ∧
      ShortestJobFirst oneSlot oneSlotOrder copyTasks ["t"] decisions) ↔
      oneSlot.getSchedulableEngines oneSlotOrder.engines = [] ∨ ["t"] = [] :=
  schedule_iff reaches_oneSlot (by decide) sorts_bySize fun task _ => found_oneSlot task

/-- The only task is given to no engine. -/
theorem decision_stays_empty :
    Reaches ServerlessSystemView.Step
      { ephemeral := .ephemeral, persistant := .fakePersistant } oneSlotCalls oneSlot ∧
      oneSlot.TraversedBy oneSlotOrder ∧ Sorts compare bySize ∧
      (∀ task, Found oneSlot oneSlotOrder (copyTasks.getTaskData task).t) ∧
      schedule oneSlot oneSlotOrder copyTasks bySize ["t"] [] = .ok [{}] ∧
      oneSlot.getSchedulableEngines oneSlotOrder.engines = ["h:3"] ∧
      ¬ ShortestJobFirst oneSlot oneSlotOrder copyTasks ["t"] [{}] := by
  refine ⟨reaches_oneSlot, by decide, sorts_bySize, found_oneSlot, by rfl, by decide, fun h => ?_⟩
  exact absurd (h.engine {} (by simp)) (by decide)

end Example

end Scheduler

end ProgrammableCaching
