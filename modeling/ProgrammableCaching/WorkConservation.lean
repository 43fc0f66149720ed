import Mathlib.Algebra.Ring.Int.Defs
import ProgrammableCaching.PersistentLookups
import ProgrammableCaching.Schedule

/-! How many tasks `Schedule` hands out, and on which tasks it dies: those of the picked tasks
whose files the view has no persistent manager for. -/

namespace ProgrammableCaching

open UnorderedMap LastWriter Runs

namespace Scheduler

/-! ## The index into the sorted list -/

section Indexed

variable (v : ServerlessSystemView) (o : SystemOrder) (jobView : JobView)

/-- `task_size_pairs[task_idx]`, which fails outside of the list. -/
def taskAt (taskSizePairs : List (String × Int)) (taskIdx : Nat) :
    Except Failure (String × Int) :=
  match taskSizePairs[taskIdx]? with
  | some pair => .ok pair
  | none => .error .outOfRange

/-- The loop over the free slots with the check of the index and the access apart. The index is a
`uint`; that it stays below `2 ^ 32` is not modelled. -/
def fillSlotsIndexed (taskSizePairs : List (String × Int)) (engine : String) :
    (available : Nat) → Nat × SchedulingDecisions → Except Failure (Nat × SchedulingDecisions)
  | 0, (taskIdx, decisions) => return (taskIdx, decisions)
  | available + 1, (taskIdx, decisions) =>
      if taskIdx ≥ taskSizePairs.length then return (taskIdx, decisions)
      else do
        let pair ← taskAt taskSizePairs taskIdx
        let decisions ← emplaceDecision v o jobView engine pair.1 decisions
        fillSlotsIndexed taskSizePairs engine available (taskIdx + 1, decisions)

def fillEngineIndexed (taskSizePairs : List (String × Int)) (st : Nat × SchedulingDecisions)
    (engine : String) : Except Failure (Nat × SchedulingDecisions) := do
  let s ← v.getEngineState engine
  let available := s.maximumTasks - s.runningTasks
  fillSlotsIndexed v o jobView taskSizePairs engine available.toNat st

def scheduleIndexed (sort : List (String × Int) → List (String × Int)) (pendingTasks : List String)
    (decisions : SchedulingDecisions) : Except Failure SchedulingDecisions := do
  let taskSizePairs :=
    sort (pendingTasks.map fun task => (task, (jobView.getJobData task).remainingTasks))
  let (_, decisions) ← (v.getSchedulableEngines o.engines).foldlM
    (fillEngineIndexed v o jobView taskSizePairs) (0, decisions)
  return decisions

variable {v o jobView}

theorem fillSlotsIndexed_eq (taskSizePairs : List (String × Int)) (engine : String)
    (available : Nat) (st : Nat × SchedulingDecisions) :
    fillSlotsIndexed v o jobView taskSizePairs engine available st =
      fillSlots v o jobView taskSizePairs engine available st := by
  induction available generalizing st with
  | zero => rfl
  | succ available ih =>
      obtain ⟨taskIdx, decisions⟩ := st
      cases hpair : taskSizePairs[taskIdx]? with
      | none =>
          have hend := List.getElem?_eq_none_iff.mp hpair
          simp [fillSlotsIndexed, fillSlots, hend]
      | some pair =>
          have hlt := (List.getElem?_eq_some_iff.mp hpair).1
          simp only [fillSlotsIndexed, fillSlots, taskAt, hpair, ge_iff_le, Nat.not_le.mpr hlt,
            if_false, ih]
          rfl

/-- No access is outside of the list. -/
theorem scheduleIndexed_eq (sort : List (String × Int) → List (String × Int))
    (pendingTasks : List String) (decisions : SchedulingDecisions) :
    scheduleIndexed v o jobView sort pendingTasks decisions =
      schedule v o jobView sort pendingTasks decisions := by
  have hengine : fillEngineIndexed v o jobView = fillEngine v o jobView := by
    funext taskSizePairs st engine
    simp only [fillEngineIndexed, fillEngine, fillSlotsIndexed_eq]
  simp only [scheduleIndexed, schedule, hengine]

end Indexed

section Loops

variable {v : ServerlessSystemView} {o : SystemOrder} {jobView : JobView}

/-! ## Work conservation -/

/-- An engine that is schedulable has a free slot. -/
theorem freeSlots_eq_sum {engines : List String}
    (h : ∀ engine ∈ engines, (v.stateOf engine).availableToSchedule) :
    (freeSlots v engines : Int) = (engines.map fun engine =>
      (v.stateOf engine).maximumTasks - (v.stateOf engine).runningTasks).sum := by
  induction engines with
  | nil => rfl
  | cons engine engines ih =>
      have hroom := h engine (by simp)
      simp only [EngineState.availableToSchedule, Bool.and_eq_true, decide_eq_true_eq] at hroom
      have hrest := ih fun engine' he => h engine' (by simp [he])
      rw [freeSlots, List.map_cons, List.sum_cons, ← hrest]
      omega

/-- **Work conservation.** When the lookups for the picked tasks succeed, `Schedule` adds as many
decisions as there are pending tasks or free slots, whichever are fewer, to those that were
there, and every access to the sorted list is inside of it. -/
theorem schedule_work_conserving {sort : List (String × Int) → List (String × Int)}
    (hsort : Sorts compare sort) (ho : v.TraversedBy o) {pendingTasks : List String}
    (h : ∀ task ∈ pickedTasks v o jobView sort pendingTasks,
      Found v o (jobView.getTaskData task).t) (decisions : SchedulingDecisions) :
    ∃ added, schedule v o jobView sort pendingTasks decisions = .ok (decisions ++ added) ∧
      scheduleIndexed v o jobView sort pendingTasks decisions = .ok (decisions ++ added) ∧
      (added.length : Int) = min (pendingTasks.length : Int)
        (((v.getSchedulableEngines o.engines).map fun engine =>
          (v.stateOf engine).maximumTasks - (v.stateOf engine).runningTasks).sum) := by
  have hreturns := schedule_eq hsort.perm ho.1 h decisions
  have hslots := freeSlots_eq_sum fun engine hengine =>
    (ServerlessSystemView.mem_getSchedulableEngines_iff ho.1).mp hengine
  refine ⟨_, hreturns, (scheduleIndexed_eq sort pendingTasks decisions).trans hreturns, ?_⟩
  rw [List.length_replicate, ← hslots]
  omega

/-! ## The tasks that end a call -/

theorem found_of_fillDecision {engine task : String} {d d' : Decision}
    (h : fillDecision v o jobView engine task d = .ok d') :
    Found v o (jobView.getTaskData task).t := by
  constructor
  · intro hinput
    simp only [fillDecision, pure_bind, if_pos hinput, exceptBind_ok] at h
    obtain ⟨name, hname, _⟩ := h
    exact ⟨name, hname⟩
  · intro houtput
    -- the lookup for the output comes behind the one for the input, if there is one
    by_cases hinput : (jobView.getTaskData task).t.inputFile ≠ ""
    · simp only [fillDecision, pure_bind, if_pos hinput, if_pos houtput, exceptBind_ok] at h
      obtain ⟨_, _, name, hname, _⟩ := h
      exact ⟨name, hname⟩
    · simp only [fillDecision, pure_bind, if_neg hinput, if_pos houtput, exceptBind_ok] at h
      obtain ⟨name, hname, _⟩ := h
      exact ⟨name, hname⟩

theorem found_of_emplaceDecision {engine task : String} {decisions decisions' : SchedulingDecisions}
    (h : emplaceDecision v o jobView engine task decisions = .ok decisions') :
    Found v o (jobView.getTaskData task).t := by
  obtain ⟨d, hfill, _⟩ := exceptBind_ok.mp h
  exact found_of_fillDecision hfill

/-- Slots that are filled without a failure have taken tasks with all their managers. -/
theorem found_of_fillSlots {taskSizePairs : List (String × Int)} {engine : String}
    {available taskIdx : Nat} {decisions : SchedulingDecisions} {r : Nat × SchedulingDecisions}
    (h : fillSlots v o jobView taskSizePairs engine available (taskIdx, decisions) = .ok r) :
    ∀ pair ∈ (taskSizePairs.drop taskIdx).take available,
      Found v o (jobView.getTaskData pair.1).t := by
  induction available generalizing taskIdx decisions with
  | zero => simp
  | succ available ih =>
      cases hpair : taskSizePairs[taskIdx]? with
      | none =>
          have hend := List.getElem?_eq_none_iff.mp hpair
          simp [List.drop_eq_nil_of_le hend]
      | some pair =>
          obtain ⟨hlt, hget⟩ := List.getElem?_eq_some_iff.mp hpair
          simp only [fillSlots, hpair, exceptBind_ok] at h
          obtain ⟨decisions', hemplace, hrest⟩ := h
          rw [List.drop_eq_getElem_cons hlt, hget, List.take_succ_cons, List.forall_mem_cons]
          exact ⟨found_of_emplaceDecision hemplace, ih hrest⟩

theorem found_of_foldlM_fillEngine {taskSizePairs : List (String × Int)} {engines : List String}
    (hengines : ∀ engine ∈ engines, v.getEngineState engine = .ok (v.stateOf engine))
    {taskIdx : Nat} {decisions : SchedulingDecisions} {r : Nat × SchedulingDecisions}
    (h : engines.foldlM (fillEngine v o jobView taskSizePairs) (taskIdx, decisions) = .ok r) :
    ∀ pair ∈ (taskSizePairs.drop taskIdx).take (freeSlots v engines),
      Found v o (jobView.getTaskData pair.1).t := by
  induction engines generalizing taskIdx decisions with
  | nil => simp [freeSlots]
  | cons engine engines ih =>
      rw [List.foldlM_cons, fillEngine, hengines engine (by simp), exceptBind_ok] at h
      obtain ⟨st, hslots, hrest⟩ := h
      have hfound := found_of_fillSlots hslots
      obtain rfl := Except.ok.inj ((fillSlots_eq hfound decisions).symm.trans hslots)
      rw [freeSlots, List.take_add, List.forall_mem_append, ← drop_taken]
      exact ⟨hfound, ih (fun engine' he => hengines engine' (by simp [he])) hrest⟩

/-- `Schedule` comes back exactly when the lookups for the picked tasks succeed. -/
theorem schedule_returns_iff_found {sort : List (String × Int) → List (String × Int)}
    (hsort : Sorts compare sort) (ho : v.TraversedBy o) (pendingTasks : List String)
    (decisions : SchedulingDecisions) :
    (∃ decisions', schedule v o jobView sort pendingTasks decisions = .ok decisions') ↔
      ∀ task ∈ pickedTasks v o jobView sort pendingTasks,
        Found v o (jobView.getTaskData task).t := by
  constructor
  · rintro ⟨decisions', hok⟩ task htask
    obtain ⟨pair, hpair, rfl⟩ := List.mem_map.mp htask
    obtain ⟨r, hloop, _⟩ := exceptBind_ok.mp hok
    exact found_of_foldlM_fillEngine (fun _ => getEngineState_of_schedulable ho.1) hloop pair hpair
  · exact fun h => ⟨_, schedule_eq hsort.perm ho.1 h decisions⟩

/-- The entries so far list the input file of the task, and some file when it has an output. -/
structure Supplied (storage : StorageName) (calls : List ViewCall) (task : Task) : Prop where
  input : task.inputFile ≠ "" → ∃ view ∈ entries calls, view.Lists storage task.inputFile
  output : task.outputFile ≠ "" → ∃ view ∈ entries calls, ∃ file, view.Lists storage file

theorem found_iff_supplied {storage persistant : StorageName} {calls : List ViewCall}
    (h : ServerlessSystemView.TablesAfter storage persistant calls v) (ho : v.TraversedBy o)
    (task : Task) : Found v o task ↔ Supplied storage calls task := by
  have hfile : ∀ file, (∃ name, v.getPersistentMgrForFile file = .ok name) ↔
      ∃ view ∈ entries calls, view.Lists storage file := by
    intro file
    simp only [ServerlessSystemView.getPersistentMgrForFile_iff h, exists_holderAfter_iff]
  have hput : ∀ file, (∃ name, v.getPersistentMgrForPut o.persistantKeys file = .ok name) ↔
      ∃ view ∈ entries calls, ∃ file, view.Lists storage file := by
    intro file
    cases hfirst : o.persistantKeys.head? with
    | none =>
        -- an empty table: no entry has listed a file
        have hempty := List.head?_eq_none_iff.mp hfirst
        refine iff_of_false (by simp [ServerlessSystemView.getPersistentMgrForPut, hfirst]) ?_
        rintro ⟨view, hview, file', hlists⟩
        obtain ⟨name, hname⟩ := (hfile file').mpr ⟨view, hview, hlists⟩
        have hmem : file' ∈ o.persistantKeys := by
          rw [ho.2.2, Finmap.mem_iff]
          exact ⟨name, by rw [h.holder]; exact (ServerlessSystemView.getPersistentMgrForFile_iff
            h file' name).mp hname⟩
        simp [hempty] at hmem
    | some first =>
        have hmem : first ∈ v.persistantKeyToMgr := (ho.2.2 first).mp (List.mem_of_head? hfirst)
        obtain ⟨name, hname⟩ := Finmap.mem_iff.mp hmem
        have hlookup : v.getPersistentMgrForFile first = .ok name := by
          simp [ServerlessSystemView.getPersistentMgrForFile, hname]
        obtain ⟨view, hview, hlists⟩ := (hfile first).mp ⟨name, hlookup⟩
        refine iff_of_true ⟨name, ?_⟩ ⟨view, hview, first, hlists⟩
        simpa [ServerlessSystemView.getPersistentMgrForPut, hfirst] using hlookup
  constructor
  · exact fun hfound => ⟨fun hne => (hfile _).mp (hfound.input hne),
      fun hne => (hput _).mp (hfound.output hne)⟩
  · exact fun hsupplied => ⟨fun hne => (hfile _).mpr (hsupplied.input hne),
      fun hne => (hput _).mpr (hsupplied.output hne)⟩

/-- **When `Schedule` comes back.** Exactly when the replies parsed so far supply every picked
task. -/
theorem schedule_returns_iff {storage persistant : StorageName} {calls : List ViewCall}
    (hrun : Reaches ServerlessSystemView.Step
      { ephemeral := storage, persistant := persistant } calls v)
    (ho : v.TraversedBy o) {sort : List (String × Int) → List (String × Int)}
    (hsort : Sorts compare sort) (jobView : JobView) (pendingTasks : List String)
    (decisions : SchedulingDecisions) :
    (∃ decisions', schedule v o jobView sort pendingTasks decisions = .ok decisions') ↔
      ∀ task ∈ pickedTasks v o jobView sort pendingTasks,
        Supplied storage calls (jobView.getTaskData task).t := by
  simp only [schedule_returns_iff_found hsort ho,
    found_iff_supplied (ServerlessSystemView.tablesAfter_of_reaches hrun) ho]

end Loops

section Example

theorem schedule_work_conserving_oneSlot :
    ∃ added,
      schedule oneSlot oneSlotOrder copyTasks bySize ["t", "u"] [({} : Decision)] =
        .ok ([({} : Decision)] ++ added) ∧
      scheduleIndexed oneSlot oneSlotOrder copyTasks bySize ["t", "u"] [({} : Decision)] =
        .ok ([({} : Decision)] ++ added) ∧
      (added.length : Int) = min ((["t", "u"] : List String).length : Int)
        (((oneSlot.getSchedulableEngines oneSlotOrder.engines).map fun engine =>
          (oneSlot.stateOf engine).maximumTasks - (oneSlot.stateOf engine).runningTasks).sum) :=
  schedule_work_conserving sorts_bySize (by decide) (fun task _ => found_oneSlot task)
    [({} : Decision)]

theorem schedule_returns_iff_oneSlot :
    (∃ decisions', schedule oneSlot oneSlotOrder copyTasks bySize ["t"] [] = .ok decisions') ↔
      ∀ task ∈ pickedTasks oneSlot oneSlotOrder copyTasks bySize ["t"],
        Supplied .ephemeral oneSlotCalls (copyTasks.getTaskData task).t :=
  schedule_returns_iff reaches_oneSlot (by decide) sorts_bySize copyTasks ["t"] []

/-- The engine of `oneSlot` with an empty persistent storage. -/
def emptyStorageCalls : List ViewCall :=
  [.addExecutionEngine "h:3" "h:2" 2,
    .parseGetViewReply {
      view := [{ name := "manager:EPHEMERAL:MANAGED:h", uri := "h:1", key := ["in"] },
        { name := "manager:FAKE_PERSISTANT:MANAGED:p", uri := "p:1" }]
      client := [{ name := "client:h", uri := "h:2" }] }]

def emptyStorageOrder : SystemOrder := ⟨["h:3"], []⟩

/-- The task `t` writes `out`; any other one reads `in`. -/
def writeOrRead : JobView where
  getJobData _ := ⟨1⟩
  getTaskData id := if id = "t" then ⟨{ id, outputFile := "out" }⟩ else ⟨{ id, inputFile := "in" }⟩

/-- The first task that writes, and the first that reads a file that is only cached, ends the
call. -/
theorem schedule_dies_on_task :
    Reaches ServerlessSystemView.Step ServerlessSystemView.freshView emptyStorageCalls
        (ServerlessSystemView.viewAfter emptyStorageCalls) ∧
      (ServerlessSystemView.viewAfter emptyStorageCalls).TraversedBy emptyStorageOrder ∧
      Sorts compare bySize ∧
      schedule (ServerlessSystemView.viewAfter emptyStorageCalls) emptyStorageOrder writeOrRead
        bySize ["t", "u"] [] = .error .badIterator ∧
      schedule (ServerlessSystemView.viewAfter emptyStorageCalls) emptyStorageOrder writeOrRead
        bySize ["u"] [] = .error .outOfRange :=
  ⟨.cons rfl (.cons rfl .nil), by decide, sorts_bySize, rfl, rfl⟩

end Example

end Scheduler

end ProgrammableCaching
