import ProgrammableCaching.Library.Contracts
import ProgrammableCaching.Schedule

/-! The handlers of the scheduler and the passes of its control thread as threads. Every method of
the system view takes the lock once, so it is one call; the other calls are the lookups in the job
view and the RPCs to the storage master and to the execution engines. -/

namespace ProgrammableCaching

open UnorderedMap Runs Pools Contracts

inductive SchedulerCall : Type → Type
  | addExecutionEngine (execUri clientUri : String) (maximumTasks : Int) :
      SchedulerCall (Except Failure Unit)
  | parseGetViewReply (masterView : GetViewReply) : SchedulerCall (Except Failure Unit)
  | tasksScheduled (decisions : SchedulingDecisions) : SchedulerCall Unit
  | getSchedulableEngines : SchedulerCall (List String)
  | getEngineState (engineName : String) : SchedulerCall (Except Failure EngineState)
  | getPersistentMgrForFile (fileName : String) : SchedulerCall (Except Failure String)
  | getPersistentMgrForPut (fileName : String) : SchedulerCall (Except Failure String)
  | getPendingTasks : SchedulerCall (List String)
  | getJobData (taskId : String) : SchedulerCall JobData
  | getTaskData (taskId : String) : SchedulerCall TaskData
  | getView : SchedulerCall (Status × GetViewReply)
  | installRule (request : InstallRuleRequest) : SchedulerCall Status
  | execute (uri : String) (task : Task) : SchedulerCall Status

/-- The methods of the system view that throw. -/
inductive ThrowingMethod
  | addExecutionEngine
  | parseGetViewReply
  | getEngineState
  | getPersistentMgr
  deriving DecidableEq, Repr

/-- A handler of the scheduler or a pass of its control thread, or what is left of one. -/
abbrev SchedulerThread := Prog SchedulerCall (ThrowingMethod × Failure)

namespace SchedulerThread

def attempt {α : Type} (method : ThrowingMethod) (c : SchedulerCall (Except Failure α)) :
    SchedulerThread α := do
  match ← Prog.perform c with
  | .ok a => return a
  | .error e => throw (method, e)

/-- `Scheduler::Introduce`. -/
def introduce (request : SchedulerIntroduceRequest) : SchedulerThread Unit :=
  attempt .addExecutionEngine (.addExecutionEngine request.rpcUri request.clientRpcUri
    request.maximumTasks.toInt)

/-- A call of `ParseGetViewReply`, which the scheduler itself does not make. -/
def parseGetViewReply (masterView : GetViewReply) : SchedulerThread Unit :=
  attempt .parseGetViewReply (.parseGetViewReply masterView)

/-- The GET rule for the input file of the task. -/
def addInputRule (d : Decision) : SchedulerThread Decision :=
  if d.task.inputFile ≠ "" then do
    let name ← attempt .getPersistentMgr (.getPersistentMgrForFile d.task.inputFile)
    return { d with rules := d.rules ++ [{
      opType := .get
      key := d.task.inputFile
      action := [.get { key := d.task.inputFile, mgr := { name } }] }] }
  else return d

/-- The PUT rule for the output file of the task. -/
def addOutputRule (d : Decision) : SchedulerThread Decision :=
  if d.task.outputFile ≠ "" then do
    let name ← attempt .getPersistentMgr (.getPersistentMgrForPut d.task.outputFile)
    return { d with rules := d.rules ++ [{
      opType := .put
      key := d.task.outputFile
      action := [.put { key := d.task.outputFile, mgr := { name } }] }] }
  else return d

/-- The loop body of `Schedule` on the decision `d`, from its task to its engine. -/
def fillDecision (engine task : String) (d : Decision) : SchedulerThread Decision := do
  let data ← Prog.perform (.getTaskData task)
  let d ← addInputRule { d with task := data.t }
  let d ← addOutputRule d
  return { d with engine }

/-- `auto d` is a copy of the new last element. -/
def emplaceDecision (engine task : String) (decisions : SchedulingDecisions) :
    SchedulerThread SchedulingDecisions := do
  let decisions := decisions ++ [({} : Decision)]
  let d := decisions.getLast?.getD {}
  let _d ← fillDecision engine task d
  return decisions

def fillSlots (taskSizePairs : List (String × Int)) (engine : String) :
    (available : Nat) → Nat × SchedulingDecisions → SchedulerThread (Nat × SchedulingDecisions)
  | 0, (taskIdx, decisions) => return (taskIdx, decisions)
  | available + 1, (taskIdx, decisions) =>
      match taskSizePairs[taskIdx]? with
      | none => return (taskIdx, decisions)
      | some pair => do
          let decisions ← emplaceDecision engine pair.1 decisions
          fillSlots taskSizePairs engine available (taskIdx + 1, decisions)

def fillEngine (taskSizePairs : List (String × Int)) (st : Nat × SchedulingDecisions)
    (engine : String) : SchedulerThread (Nat × SchedulingDecisions) := do
  let s ← attempt .getEngineState (.getEngineState engine)
  let available := s.maximumTasks - s.runningTasks
  fillSlots taskSizePairs engine available.toNat st

/-- `Scheduler::Schedule`. -/
def schedule (sort : List (String × Int) → List (String × Int)) (pendingTasks : List String)
    (decisions : SchedulingDecisions) : SchedulerThread SchedulingDecisions := do
  let pairs ← pendingTasks.mapM fun task => do
    let j ← Prog.perform (.getJobData task)
    return (task, j.remainingTasks)
  let engines ← Prog.perform .getSchedulableEngines
  let (_, decisions) ← engines.foldlM (fillEngine (sort pairs)) (0, decisions)
  return decisions

/-- `Scheduler::Execute`. The answers of the RPCs are not looked at. -/
def execute (decisions : SchedulingDecisions) : SchedulerThread Unit :=
  decisions.forM fun decision => do
    let s ← attempt .getEngineState (.getEngineState decision.engine)
    decision.rules.forM fun rule => do
      let _status ← Prog.perform (.installRule { client := s.clientName, rule })
    let _status ← Prog.perform (.execute decision.engine decision.task)

/-- One pass of `SchedulerControlThread`. `JobView::TasksScheduled` has an empty body. -/
def controlPass (sort : List (String × Int) → List (String × Int)) : SchedulerThread Unit := do
  let _viewReply ← Prog.perform .getView
  let pendingJobs ← Prog.perform .getPendingTasks
  if pendingJobs ≠ [] then
    let decisions ← schedule sort pendingJobs []
    Prog.perform (.tasksScheduled decisions)
    execute decisions

end SchedulerThread

/-! ## What the calls answer -/

namespace SchedulerCall

variable {β : Type}

/-- The view after the call, also when it throws. `AddExecutionEngine` throws before it writes, and
`ParseGetViewReply` keeps what it has written. -/
def effect : SchedulerCall β → ServerlessSystemView → ServerlessSystemView
  | addExecutionEngine execUri clientUri maximumTasks, v =>
      (v.addExecutionEngine execUri clientUri maximumTasks).toOption.getD v
  | parseGetViewReply masterView, v =>
      ((ServerlessSystemView.parseGetViewReplyInPlace masterView).run.run v).2
  | tasksScheduled decisions, v => v.tasksScheduled decisions
  | _, v => v

/-- The methods of the system view answer as they are defined, for some order of its tables. The
methods of the job view and the other services may answer anything. -/
def Answers : SchedulerCall β → ServerlessSystemView → β → Prop
  | addExecutionEngine execUri clientUri maximumTasks, v, b =>
      b = (v.addExecutionEngine execUri clientUri maximumTasks).map fun _ => ()
  | parseGetViewReply masterView, v, b =>
      b = ((ServerlessSystemView.parseGetViewReplyInPlace masterView).run.run v).1
  | getSchedulableEngines, v, b =>
      ∃ order, Enumerates order v.engineToState ∧ b = v.getSchedulableEngines order
  | getEngineState engineName, v, b => b = v.getEngineState engineName
  | getPersistentMgrForFile fileName, v, b => b = v.getPersistentMgrForFile fileName
  | getPersistentMgrForPut fileName, v, b =>
      ∃ order, Enumerates order v.persistantKeyToMgr ∧ b = v.getPersistentMgrForPut order fileName
  | _, _, _ => True

end SchedulerCall

/-- What is seen of a call. -/
abbrev SchedulerCallSeen := Σ β, SchedulerCall β × β

def SchedulerServe {β : Type} (c : SchedulerCall β) (v : ServerlessSystemView)
    (l : SchedulerCallSeen) (b : β) (v' : ServerlessSystemView) : Prop :=
  l = ⟨β, c, b⟩ ∧ c.Answers v b ∧ v' = c.effect v

abbrev SchedulerThreadEvent := Pools.Event (SchedulerThread Unit) SchedulerCallSeen

/-- A thread is started, or one of them makes a call. -/
abbrev SchedulerStep (starts : SchedulerThread Unit → Prop) :
    Pool ServerlessSystemView (SchedulerThread Unit) → SchedulerThreadEvent →
      Pool ServerlessSystemView (SchedulerThread Unit) → Prop :=
  PoolStep starts (CallStep SchedulerServe)

/-! ## A pass that is not interrupted -/

namespace SchedulerCall

variable {β : Type}

/-- What a call answers when the tables are traversed in the order `o` and the job view looks up
`jobView`. -/
def answer (o : SystemOrder) (jobView : JobView) (v : ServerlessSystemView) :
    SchedulerCall β → β
  | addExecutionEngine execUri clientUri maximumTasks =>
      (v.addExecutionEngine execUri clientUri maximumTasks).map fun _ => ()
  | parseGetViewReply masterView =>
      ((ServerlessSystemView.parseGetViewReplyInPlace masterView).run.run v).1
  | tasksScheduled _ => ()
  | getSchedulableEngines => v.getSchedulableEngines o.engines
  | getEngineState engineName => v.getEngineState engineName
  | getPersistentMgrForFile fileName => v.getPersistentMgrForFile fileName
  | getPersistentMgrForPut fileName => v.getPersistentMgrForPut o.persistantKeys fileName
  | getPendingTasks => []
  | getJobData taskId => jobView.getJobData taskId
  | getTaskData taskId => jobView.getTaskData taskId
  | getView => (.ok, {})
  | installRule _ => .ok
  | execute _ _ => .ok

theorem answers_answer {o : SystemOrder} {jobView : JobView} {v : ServerlessSystemView}
    (h : v.TraversedBy o) (c : SchedulerCall β) : c.Answers v (c.answer o jobView v) := by
  cases c with
  | getSchedulableEngines => exact ⟨o.engines, h.1, rfl⟩
  | getPersistentMgrForPut fileName => exact ⟨o.persistantKeys, h.2, rfl⟩
  | addExecutionEngine | parseGetViewReply | getEngineState | getPersistentMgrForFile => rfl
  | _ => trivial

def handle (o : SystemOrder) (jobView : JobView) {β : Type} (c : SchedulerCall β) :
    StateT ServerlessSystemView (Except (ThrowingMethod × Failure)) β :=
  fun v => .ok (c.answer o jobView v, c.effect v)

end SchedulerCall

namespace SchedulerThread

variable {o : SystemOrder} {jobView : JobView} {v : ServerlessSystemView} {α β : Type}

/-- When nothing else happens between its calls, the code leaves the view alone and comes to the
result `x`. -/
def Computes (o : SystemOrder) (jobView : JobView) (v : ServerlessSystemView)
    (p : SchedulerThread α) : Except Failure α → Prop
  | .ok a => p.eval (SchedulerCall.handle o jobView) v = .ok (a, v)
  | .error e => ∃ method, p.eval (SchedulerCall.handle o jobView) v = .error (method, e)

theorem computes_pure (a : α) : Computes o jobView v (pure a) (pure a) := rfl

theorem Computes.bind {p : SchedulerThread α} {x : Except Failure α} {f : α → SchedulerThread β}
    {g : α → Except Failure β} (hp : Computes o jobView v p x)
    (hf : ∀ a, Computes o jobView v (f a) (g a)) : Computes o jobView v (p >>= f) (x >>= g) := by
  have heval : (p >>= f).eval (SchedulerCall.handle o jobView) v =
      (p.eval (SchedulerCall.handle o jobView) v >>= fun r =>
        (f r.1).eval (SchedulerCall.handle o jobView) r.2) := by
    rw [Prog.eval_bind]
    rfl
  cases x with
  | ok a =>
      have hp : p.eval (SchedulerCall.handle o jobView) v = .ok (a, v) := hp
      rw [hp] at heval
      have hfa := hf a
      change Computes o jobView v (p >>= f) (g a)
      cases hga : g a with
      | ok b =>
          rw [hga] at hfa
          exact heval.trans hfa
      | error e =>
          rw [hga] at hfa
          obtain ⟨method, hfail⟩ := hfa
          exact ⟨method, heval.trans hfail⟩
  | error e =>
      obtain ⟨method, hp⟩ := hp
      rw [hp] at heval
      exact ⟨method, heval⟩

theorem computes_ask (c : SchedulerCall α) (hc : c.effect v = v) :
    Computes o jobView v (Prog.perform c) (pure (c.answer o jobView v)) := by
  change (Prog.perform c).eval (SchedulerCall.handle o jobView) v = _
  rw [Prog.eval_perform, SchedulerCall.handle, hc]

theorem computes_attempt (method : ThrowingMethod) (c : SchedulerCall (Except Failure α))
    (hc : c.effect v = v) :
    Computes o jobView v (attempt method c) (c.answer o jobView v) := by
  refine (computes_ask c hc).bind (g := fun x => x) fun x => ?_
  cases x with
  | ok a => exact rfl
  | error e => exact ⟨method, rfl⟩

/-- The rules of the decision with the one for the input file, and the one for the output file. -/
def inputRule (v : ServerlessSystemView) (d : Decision) : Except Failure Decision :=
  if d.task.inputFile ≠ "" then do
    let name ← v.getPersistentMgrForFile d.task.inputFile
    return { d with rules := d.rules ++ [{
      opType := .get
      key := d.task.inputFile
      action := [.get { key := d.task.inputFile, mgr := { name } }] }] }
  else return d

def outputRule (v : ServerlessSystemView) (o : SystemOrder) (d : Decision) :
    Except Failure Decision :=
  if d.task.outputFile ≠ "" then do
    let name ← v.getPersistentMgrForPut o.persistantKeys d.task.outputFile
    return { d with rules := d.rules ++ [{
      opType := .put
      key := d.task.outputFile
      action := [.put { key := d.task.outputFile, mgr := { name } }] }] }
  else return d

theorem computes_fillDecision (engine task : String) (d : Decision) :
    Computes o jobView v (fillDecision engine task d)
      (Scheduler.fillDecision v o jobView engine task d) := by
  have hparts : Scheduler.fillDecision v o jobView engine task d = (do
      let data ← (pure (jobView.getTaskData task) : Except Failure TaskData)
      let d ← inputRule v { d with task := data.t }
      let d ← outputRule v o d
      return { d with engine }) := by
    by_cases hinput : (jobView.getTaskData task).t.inputFile = "" <;>
      by_cases houtput : (jobView.getTaskData task).t.outputFile = "" <;>
        simp [Scheduler.fillDecision, inputRule, outputRule, hinput, houtput]
  rw [hparts]
  refine (computes_ask (.getTaskData task) rfl).bind fun data => ?_
  refine Computes.bind ?_ fun d => Computes.bind ?_ fun d => computes_pure _
  · unfold addInputRule inputRule
    split
    · exact (computes_attempt _ (.getPersistentMgrForFile _) rfl).bind fun _ => computes_pure _
    · exact computes_pure _
  · unfold addOutputRule outputRule
    split
    · exact (computes_attempt _ (.getPersistentMgrForPut _) rfl).bind fun _ => computes_pure _
    · exact computes_pure _

theorem computes_fillSlots (taskSizePairs : List (String × Int)) (engine : String)
    (available : Nat) (st : Nat × SchedulingDecisions) :
    Computes o jobView v (fillSlots taskSizePairs engine available st)
      (Scheduler.fillSlots v o jobView taskSizePairs engine available st) := by
  induction available generalizing st with
  | zero => exact computes_pure _
  | succ available ih =>
      obtain ⟨taskIdx, decisions⟩ := st
      cases hpair : taskSizePairs[taskIdx]? with
      | none =>
          simp only [fillSlots, Scheduler.fillSlots, hpair]
          exact computes_pure _
      | some pair =>
          simp only [fillSlots, Scheduler.fillSlots, hpair]
          refine Computes.bind ?_ fun ds => ih _
          exact (computes_fillDecision engine _ _).bind fun _ => computes_pure _

theorem computes_foldlM {γ : Type} {l : List γ} {f : α → γ → SchedulerThread α}
    {g : α → γ → Except Failure α} (h : ∀ a, ∀ x ∈ l, Computes o jobView v (f a x) (g a x))
    (a : α) : Computes o jobView v (l.foldlM f a) (l.foldlM g a) := by
  induction l generalizing a with
  | nil => exact computes_pure a
  | cons x l ih =>
      rw [List.foldlM_cons, List.foldlM_cons]
      exact (h a x (by simp)).bind fun a' => ih (fun b y hy => h b y (by simp [hy])) a'

theorem computes_jobSizes (pendingTasks : List String) :
    Computes o jobView v (pendingTasks.mapM fun task => do
        let j ← Prog.perform (.getJobData task)
        return (task, j.remainingTasks))
      (pure (pendingTasks.map fun task => (task, (jobView.getJobData task).remainingTasks))) := by
  induction pendingTasks with
  | nil => exact computes_pure _
  | cons task rest ih =>
      rw [List.mapM_cons]
      refine Computes.bind (g := fun pair => pure (pair :: _)) (x := pure _)
        ((computes_ask (.getJobData task) rfl).bind fun _ => computes_pure _) fun pair => ?_
      exact ih.bind fun _ => computes_pure _

/-- **A `Schedule` whose calls are not interrupted is `Scheduler.schedule`.** -/
theorem computes_schedule (sort : List (String × Int) → List (String × Int))
    (pendingTasks : List String) (decisions : SchedulingDecisions) :
    Computes o jobView v (schedule sort pendingTasks decisions)
      (Scheduler.schedule v o jobView sort pendingTasks decisions) := by
  have hparts : Scheduler.schedule v o jobView sort pendingTasks decisions = (do
      let pairs ← (pure (pendingTasks.map fun task =>
        (task, (jobView.getJobData task).remainingTasks)) : Except Failure _)
      let engines ← (pure (v.getSchedulableEngines o.engines) : Except Failure _)
      let (_, decisions) ← engines.foldlM (Scheduler.fillEngine v o jobView (sort pairs))
        (0, decisions)
      return decisions) := rfl
  rw [hparts]
  refine (computes_jobSizes pendingTasks).bind fun pairs => ?_
  refine (computes_ask .getSchedulableEngines rfl).bind fun engines => ?_
  refine Computes.bind (computes_foldlM (fun st engine _ => ?_) _) fun _ => computes_pure _
  exact (computes_attempt _ (.getEngineState engine) rfl).bind fun state =>
    computes_fillSlots _ engine _ st

end SchedulerThread

/-! ## What the code asks for -/

namespace SchedulerCall

variable {β : Type}

/-- No rule is sent out, and what is scheduled or sent out for execution is blank. Where no reply
of the master is parsed, not even that is. -/
def Harmless (parses : Prop) : SchedulerCall β → Prop
  | parseGetViewReply _ => parses
  | tasksScheduled decisions => ∀ d ∈ decisions, d = {} ∧ parses
  | getEngineState _ => parses
  | getPersistentMgrForFile _ => parses
  | getPersistentMgrForPut _ => parses
  | installRule _ => False
  | execute uri task => uri = "" ∧ task = {} ∧ parses
  | addExecutionEngine _ _ _ | getSchedulableEngines | getPendingTasks => True
  | getJobData _ | getTaskData _ | getView => True

/-- The engine whose state is looked up. -/
def asksFor : SchedulerCall β → Option String
  | getEngineState engineName => some engineName
  | _ => none

/-- Engines that are listed or that decisions name are known afterwards, and a known engine is
found. -/
def Ensures (parses : Prop) : SchedulerCall β → β → (String → Prop) → Prop
  | getSchedulableEngines, b, κ => ∀ engine ∈ b, κ engine ∧ parses
  | getEngineState _, b, _ => ∃ state, b = .ok state
  | tasksScheduled decisions, _, κ => ∀ d ∈ decisions, κ d.engine
  | _, _, _ => True

end SchedulerCall

/-- The methods that may throw. -/
def ThrowingMethod.Excused (parses : Prop) : ThrowingMethod → Prop
  | addExecutionEngine => True
  | parseGetViewReply => parses
  | getEngineState => False
  | getPersistentMgr => parses

/-- All calls are harmless, the states of known engines only are looked up, and that does not
throw. -/
def schedulerContract (parses : Prop) :
    Contract SchedulerCall (ThrowingMethod × Failure) (String → Prop) where
  requires c κ := c.Harmless parses ∧ ∀ engine ∈ c.asksFor, κ engine
  ensures c b κ := c.Ensures parses b κ
  excuses e := e.1.Excused parses

namespace SchedulerThread

variable {parses : Prop} {κ κ' : String → Prop} {α : Type}

/-- Only blank decisions, and none where no reply is parsed. -/
def Blank (parses : Prop) (decisions : SchedulingDecisions) : Prop :=
  ∀ d ∈ decisions, d = {} ∧ parses

theorem meets_ask {β : Type} {c : SchedulerCall β} (h : c.Harmless parses)
    (hasks : c.asksFor = none) :
    Meets (schedulerContract parses) (fun _ _ => True) (Prog.perform c : SchedulerThread β) κ :=
  meets_perform (fun _ _ => ⟨h, by simp [hasks]⟩) fun _ _ _ _ _ _ => trivial

theorem meets_attempt {method : ThrowingMethod} {c : SchedulerCall (Except Failure α)}
    (h : c.Harmless parses) (hasks : c.asksFor = none) (hmethod : method.Excused parses) :
    Meets (schedulerContract parses) (fun _ _ => True) (attempt method c) κ := by
  refine (meets_ask h hasks).bind fun b _ _ _ => ?_
  cases b with
  | ok a => exact fun _ _ => trivial
  | error e => exact hmethod

theorem meets_getEngineState {engine : String} (hparses : parses) (h : κ engine) :
    Meets (schedulerContract parses) (fun _ _ => True)
      (attempt .getEngineState (.getEngineState engine)) κ := by
  refine fun κ₁ hle => ⟨⟨hparses, ?_⟩, fun b κ₂ _ hfound => ?_⟩
  · rintro _ ⟨⟩
    exact hle _ h
  obtain ⟨state, rfl⟩ := hfound
  exact fun _ _ => trivial

theorem meets_introduce (request : SchedulerIntroduceRequest) :
    Meets (schedulerContract parses) (fun _ _ => True) (introduce request) κ :=
  meets_attempt trivial rfl trivial

theorem meets_parseGetViewReply (hparses : parses) (masterView : GetViewReply) :
    Meets (schedulerContract parses) (fun _ _ => True) (parseGetViewReply masterView) κ :=
  meets_attempt hparses rfl hparses

theorem meets_addInputRule (hparses : parses) (d : Decision) :
    Meets (schedulerContract parses) (fun _ _ => True) (addInputRule d) κ := by
  unfold addInputRule
  split
  · refine (meets_attempt ?_ rfl ?_).bind fun _ _ _ _ _ _ => trivial
    · exact hparses
    · exact hparses
  · exact fun _ _ => trivial

theorem meets_addOutputRule (hparses : parses) (d : Decision) :
    Meets (schedulerContract parses) (fun _ _ => True) (addOutputRule d) κ := by
  unfold addOutputRule
  split
  · refine (meets_attempt ?_ rfl ?_).bind fun _ _ _ _ _ _ => trivial
    · exact hparses
    · exact hparses
  · exact fun _ _ => trivial

theorem meets_fillDecision (hparses : parses) (engine task : String) (d : Decision) :
    Meets (schedulerContract parses) (fun _ _ => True) (fillDecision engine task d) κ := by
  refine (meets_ask (c := .getTaskData task) trivial rfl).bind fun data _ _ _ => ?_
  refine (meets_addInputRule hparses _).bind fun d _ _ _ => ?_
  exact (meets_addOutputRule hparses d).bind fun _ _ _ _ _ _ => trivial

/-- What is filled in is filled in on a copy. -/
theorem meets_emplaceDecision (hparses : parses) {engine task : String}
    {decisions : SchedulingDecisions} (hblank : Blank parses decisions) :
    Meets (schedulerContract parses) (fun ds _ => Blank parses ds)
      (emplaceDecision engine task decisions) κ := by
  refine (meets_fillDecision hparses engine task _).bind fun _ _ _ _ _ _ d hd => ?_
  rcases List.mem_append.mp hd with hd | hd
  · exact hblank d hd
  · exact ⟨List.mem_singleton.mp hd, hparses⟩

theorem meets_fillSlots (hparses : parses) (taskSizePairs : List (String × Int))
    (engine : String) {available : Nat} {st : Nat × SchedulingDecisions}
    (hblank : Blank parses st.2) :
    Meets (schedulerContract parses) (fun st _ => Blank parses st.2)
      (fillSlots taskSizePairs engine available st) κ := by
  induction available generalizing st κ with
  | zero => exact fun _ _ => hblank
  | succ available ih =>
      obtain ⟨taskIdx, decisions⟩ := st
      unfold fillSlots
      split
      · exact fun _ _ => hblank
      · exact (meets_emplaceDecision hparses hblank).bind fun _ _ _ hblank' => ih hblank'

/-- `Schedule` returns blank decisions. -/
theorem meets_schedule (sort : List (String × Int) → List (String × Int))
    (pendingTasks : List String) :
    Meets (schedulerContract parses) (fun ds _ => Blank parses ds)
      (schedule sort pendingTasks []) κ := by
  refine Meets.bind (Q := fun _ _ => True) (meets_mapM fun task _ _ _ => ?_)
    fun pairs κ₁ _ _ => ?_
  · exact (meets_ask (c := .getJobData task) trivial rfl).bind fun _ _ _ _ _ _ => trivial
  refine Meets.bind (Q := fun engines κ => ∀ engine ∈ engines, κ engine ∧ parses)
    (meets_perform (fun _ _ => ⟨trivial, nofun⟩) fun engines _ _ hlisted _ hle engine hengine => ?_)
    fun engines κ₃ _ hlisted => ?_
  · exact (hlisted engine hengine).imp_left (hle _)
  refine Meets.bind (Q := fun st _ => Blank parses st.2) ?_ fun st _ _ hblank _ _ => hblank
  refine meets_foldlM (fun _ _ _ h _ => h) (fun engine hengine st κ₄ hle hblank => ?_) nofun
  obtain ⟨hknown, hparses⟩ := hlisted engine hengine
  refine (meets_getEngineState hparses (hle _ hknown)).bind fun state _ _ _ => ?_
  exact meets_fillSlots hparses (sort pairs) engine hblank

/-- `Execute` finds the engines of the decisions and sends out blank tasks only. -/
theorem meets_execute {decisions : SchedulingDecisions} (hblank : Blank parses decisions)
    (h : ∀ d ∈ decisions, κ d.engine) :
    Meets (schedulerContract parses) (fun _ _ => True) (execute decisions) κ := by
  refine meets_forM fun d hd κ₁ hle => ?_
  obtain ⟨rfl, hparses⟩ := hblank d hd
  refine (meets_getEngineState hparses (hle _ (h _ hd))).bind fun state _ _ _ => ?_
  refine Meets.bind (Q := fun _ _ => True) (fun _ _ => trivial) fun _ _ _ _ => ?_
  exact (meets_ask (c := .execute "" {}) ⟨rfl, rfl, hparses⟩ rfl).bind fun _ _ _ _ _ _ => trivial

theorem meets_controlPass (sort : List (String × Int) → List (String × Int)) :
    Meets (schedulerContract parses) (fun _ _ => True) (controlPass sort) κ := by
  refine (meets_ask (c := .getView) trivial rfl).bind fun _ _ _ _ => ?_
  refine (meets_ask (c := .getPendingTasks) trivial rfl).bind fun pendingJobs _ _ _ => ?_
  split
  · refine (meets_schedule sort pendingJobs).bind fun decisions κ₂ _ hblank => ?_
    exact fun κ₃ _ => ⟨⟨hblank, nofun⟩, fun _ κ₄ _ hknown => meets_execute hblank hknown⟩
  · exact fun _ _ => trivial

end SchedulerThread

/-! ## Runs of the scheduler -/

namespace Scheduler

/-- The threads of the scheduler: requests of engines, and passes of the control thread, whatever
order its sort leaves equal sizes in. Replies of the master may be parsed as well. -/
inductive Starts (parses : Prop) : SchedulerThread Unit → Prop
  | introduce (request : SchedulerIntroduceRequest) :
      Starts parses (SchedulerThread.introduce request)
  | controlPass (sort : List (String × Int) → List (String × Int)) :
      Starts parses (SchedulerThread.controlPass sort)
  | parseGetViewReply (masterView : GetViewReply) : parses →
      Starts parses (SchedulerThread.parseGetViewReply masterView)

/-- The view of the system at the start. -/
abbrev startView : ServerlessSystemView :=
  { ephemeral := .ephemeral, persistant := .fakePersistant }

/-- No task is counted for any engine but the one without a name, and where no reply is parsed not
even for that, and no engine has a client. -/
def Idle (parses : Prop) (v : ServerlessSystemView) : Prop :=
  ∀ engine state, v.engineToState.lookup engine = some state →
    (state.runningTasks = 0 ∨ parses ∧ engine = "") ∧ (state.clientName = "" ∨ parses)

variable {parses : Prop} {v : ServerlessSystemView} {β : Type} {c : SchedulerCall β} {b : β}

/-- Engines stay known. -/
theorem known_effect (c : SchedulerCall β) {engine : String} (h : engine ∈ v.engineToState) :
    engine ∈ (c.effect v).engineToState := by
  cases c with
  | addExecutionEngine execUri clientUri maximumTasks =>
      rw [SchedulerCall.effect]
      cases hadd : v.addExecutionEngine execUri clientUri maximumTasks with
      | error e => exact h
      | ok v' =>
          have hinsert := (ServerlessSystemView.addExecutionEngine_engines hadd).2
          simp [Except.toOption, hinsert, h]
  | parseGetViewReply masterView =>
      have hparse : KeptWrites.Preserves (fun v => engine ∈ v.engineToState)
          (ServerlessSystemView.parseGetViewReplyInPlace masterView) :=
        ServerlessSystemView.preserves_parseGetViewReply (I := fun m => engine ∈ m)
          (fun _ _ _ hm => by simp [hm]) fun _ _ _ _ hm => by simp [hm]
      exact hparse v h
  | tasksScheduled decisions =>
      rw [mem_iff_isSome, SchedulerCall.effect, ServerlessSystemView.lookup_tasksScheduled,
        if_pos (.inr h)]
      rfl
  | _ => exact h

/-- Parsing a reply leaves the running tasks alone, also when it stops halfway. -/
theorem idle_parseGetViewReply (hparses : parses) (masterView : GetViewReply) (h : Idle parses v) :
    Idle parses ((ServerlessSystemView.parseGetViewReplyInPlace masterView).run.run v).2 := by
  have hload := ServerlessSystemView.preserves_sameLoad v.engineToState masterView v
    fun _ => .inl rfl
  intro engine state' hstate'
  refine ⟨?_, .inr hparses⟩
  rcases hload engine with hsame | ⟨_, hnew⟩
  · rw [hstate', Option.map_some, eq_comm, Option.map_eq_some_iff] at hsame
    obtain ⟨state, hstate, hload⟩ := hsame
    have hrunning : state.runningTasks = state'.runningTasks := congrArg (fun l => l.2.1) hload
    rw [← hrunning]
    exact (h engine state hstate).1
  · rw [hstate', Option.map_some] at hnew
    exact .inl (congrArg (fun l => l.2.1) (Option.some.inj hnew))

/-- Blank decisions are counted for the engine without a name. -/
theorem idle_tasksScheduled {decisions : SchedulingDecisions}
    (hblank : SchedulerThread.Blank parses decisions) (h : Idle parses v) :
    Idle parses (v.tasksScheduled decisions) := by
  intro engine state' hstate'
  rw [ServerlessSystemView.lookup_tasksScheduled] at hstate'
  split at hstate'
  · cases hstate'
    by_cases hblankEngine : parses ∧ engine = ""
    · exact ⟨.inr hblankEngine, .inr hblankEngine.1⟩
    have hcount : decisions.countP (·.engine = engine) = 0 := by
      refine List.countP_eq_zero.mpr fun d hd heq => hblankEngine ?_
      obtain ⟨rfl, hparses⟩ := hblank d hd
      exact ⟨hparses, (of_decide_eq_true heq).symm⟩
    cases hlookup : v.engineToState.lookup engine with
    | none => simp [entry, hlookup, hcount]
    | some state => simpa [entry, hlookup, hcount] using h engine state hlookup
  · cases hstate'

theorem idle_effect (hharmless : c.Harmless parses) (h : Idle parses v) :
    Idle parses (c.effect v) := by
  cases c with
  | addExecutionEngine execUri clientUri maximumTasks =>
      rw [SchedulerCall.effect]
      cases hadd : v.addExecutionEngine execUri clientUri maximumTasks with
      | error e => exact h
      | ok v' =>
          intro engine state hstate
          rw [show (Except.ok v' : Except Failure _).toOption.getD v = v' from rfl,
            (ServerlessSystemView.addExecutionEngine_engines hadd).2, lookup_insert_ite] at hstate
          split at hstate
          · cases hstate
            exact ⟨.inl rfl, .inl rfl⟩
          · exact h engine state hstate
  | parseGetViewReply masterView => exact idle_parseGetViewReply hharmless masterView h
  | tasksScheduled decisions => exact idle_tasksScheduled hharmless h
  | _ => exact h

theorem ensures_of_answers (h : c.Answers v b) (hharmless : c.Harmless parses)
    (hasks : ∀ engine ∈ c.asksFor, engine ∈ v.engineToState) (hidle : Idle parses v) :
    c.Ensures parses b (· ∈ (c.effect v).engineToState) := by
  cases c with
  | getSchedulableEngines =>
      obtain ⟨order, horder, rfl⟩ := h
      intro engine hengine
      obtain ⟨state, hstate, havailable⟩ :=
        (ServerlessSystemView.mem_getSchedulableEngines horder engine).mp hengine
      refine ⟨mem_of_lookup hstate, ?_⟩
      rcases (hidle engine state hstate).2 with hclient | hparses
      · simp [EngineState.availableToSchedule, hclient] at havailable
      · exact hparses
  | getEngineState engineName =>
      obtain ⟨state, hstate⟩ := Finmap.mem_iff.mp (hasks engineName rfl)
      exact ⟨state, by rw [show b = _ from h, ServerlessSystemView.getEngineState, hstate]⟩
  | tasksScheduled decisions =>
      intro d hd
      rw [mem_iff_isSome, SchedulerCall.effect, ServerlessSystemView.lookup_tasksScheduled,
        if_pos (.inl (by simpa using ⟨d, hd, rfl⟩))]
      rfl
  | _ => trivial

/-- The view is idle, and so were all calls. -/
def Invariant (parses : Prop) (es : List SchedulerThreadEvent) (v : ServerlessSystemView) : Prop :=
  Idle parses v ∧ ∀ (i : ℕ) (β : Type) (c : SchedulerCall β) (b : β),
    .step i ⟨β, c, b⟩ ∈ es → c.Harmless parses

theorem meets_of_starts {p : SchedulerThread Unit} {κ : String → Prop} (h : Starts parses p) :
    Meets (schedulerContract parses) (fun _ _ => True) p κ := by
  cases h with
  | introduce request => exact SchedulerThread.meets_introduce request
  | controlPass sort => exact SchedulerThread.meets_controlPass sort
  | parseGetViewReply masterView hparses =>
      exact SchedulerThread.meets_parseGetViewReply hparses masterView

/-- What holds along every run of the scheduler. -/
theorem invariant_of_reaches {es : List SchedulerThreadEvent}
    {P : Pool ServerlessSystemView (SchedulerThread Unit)}
    (hrun : Reaches (SchedulerStep (Starts parses)) ⟨startView, []⟩ es P) :
    Invariant parses es P.state ∧ ∀ (i : ℕ) (p : SchedulerThread Unit), P.threads[i]? = some p →
      Meets (schedulerContract parses) (fun _ _ => True) p (· ∈ P.state.engineToState) := by
  have h0 : Invariant parses [] startView :=
    ⟨fun engine state h => by simp at h, fun _ _ _ _ h => by cases h⟩
  have hspawn : ∀ (es : List SchedulerThreadEvent) (v : ServerlessSystemView) p,
      Invariant parses es v → Starts parses p →
        (· ∈ v.engineToState) ≤ (· ∈ v.engineToState) ∧ Invariant parses (es ++ [.spawn p]) v ∧
          Meets (schedulerContract parses) (fun _ _ => True) p (· ∈ v.engineToState) := by
    refine fun es v p hv hp => ⟨le_rfl, ⟨hv.1, fun i β c b hmem => ?_⟩, meets_of_starts hp⟩
    exact hv.2 i β c b (by simpa using hmem)
  have hserve : ∀ (es : List SchedulerThreadEvent) (i : ℕ) (v v' : ServerlessSystemView)
      (l : SchedulerCallSeen) (β : Type) (c : SchedulerCall β) (b : β), Invariant parses es v →
        (schedulerContract parses).requires c (· ∈ v.engineToState) → SchedulerServe c v l b v' →
          (· ∈ v.engineToState) ≤ (· ∈ v'.engineToState) ∧
            Invariant parses (es ++ [.step i l]) v' ∧
              (schedulerContract parses).ensures c b (· ∈ v'.engineToState) := by
    rintro es i v _ _ β c b hv ⟨hharmless, hasks⟩ ⟨rfl, hanswer, rfl⟩
    refine ⟨fun engine => known_effect c, ⟨idle_effect hharmless hv.1, fun j β' c' b' hmem => ?_⟩,
      ensures_of_answers hanswer hharmless hasks hv.1⟩
    rcases List.mem_append.mp hmem with hmem | hmem
    · exact hv.2 j β' c' b' hmem
    · cases List.mem_singleton.mp hmem
      exact hharmless
  exact meets_of_reaches h0 hspawn hserve hrun

variable {es : List SchedulerThreadEvent} {P : Pool ServerlessSystemView (SchedulerThread Unit)}

/-- **The scheduler only ever sends out blank tasks.** Engines introduce themselves, replies of the
master are parsed, some of them not to their end, and the control thread makes its passes, and their
calls take turns in any way, whatever jobs there are. No client is ever sent a rule, all that is
executed is the task without a name at the address without a name, no introduced engine is ever
charged for a task, and the lookup of an engine's state never throws. -/
theorem only_blank_tasks (hrun : Reaches (SchedulerStep (Starts True)) ⟨startView, []⟩ es P) :
    (∀ i request status, .step i ⟨_, .installRule request, status⟩ ∉ es) ∧
      (∀ i uri task status, .step i ⟨_, .execute uri task, status⟩ ∈ es → uri = "" ∧ task = {}) ∧
      (∀ engine state, engine ≠ "" → P.state.engineToState.lookup engine = some state →
        state.runningTasks = 0) ∧
      ∀ (i : ℕ) (e : Failure), P.threads[i]? ≠ some (.fail (.getEngineState, e)) := by
  obtain ⟨⟨hidle, hharmless⟩, hthreads⟩ := invariant_of_reaches hrun
  refine ⟨fun i request status hmem => hharmless i _ _ _ hmem,
    fun i uri task status hmem => ?_, fun engine state hengine hstate => ?_,
    fun i e hi => hthreads i _ hi⟩
  · obtain ⟨huri, htask, _⟩ := hharmless i _ _ _ hmem
    exact ⟨huri, htask⟩
  · exact (hidle engine state hstate).1.resolve_right fun hblank => hengine hblank.2

/-- **The control thread never schedules.** The scheduler itself parses no reply of the master, so
no engine ever has a client: no engine is ever schedulable, however often the control thread passes
and whatever jobs there are; nothing is sent out, and no pass throws. -/
theorem control_thread_never_schedules
    (hrun : Reaches (SchedulerStep (Starts False)) ⟨startView, []⟩ es P) :
    (∀ order, Enumerates order P.state.engineToState →
        P.state.getSchedulableEngines order = []) ∧
      (∀ i decisions b, .step i ⟨_, .tasksScheduled decisions, b⟩ ∈ es → decisions = []) ∧
      (∀ i uri task status, .step i ⟨_, .execute uri task, status⟩ ∉ es) ∧
      ∀ (i : ℕ) (m : ThrowingMethod) (e : Failure),
        P.threads[i]? = some (.fail (m, e)) → m = .addExecutionEngine := by
  obtain ⟨⟨hidle, hharmless⟩, hthreads⟩ := invariant_of_reaches hrun
  refine ⟨fun order horder => ?_, fun i decisions b hmem => ?_, fun i uri task status hmem => ?_,
    fun i m e hi => ?_⟩
  · refine List.eq_nil_iff_forall_not_mem.mpr fun engine hengine => ?_
    obtain ⟨state, hstate, havailable⟩ :=
      (ServerlessSystemView.mem_getSchedulableEngines horder engine).mp hengine
    have hclient := (hidle engine state hstate).2.resolve_right id
    simp [EngineState.availableToSchedule, hclient] at havailable
  · exact List.eq_nil_iff_forall_not_mem.mpr fun d hd => (hharmless i _ _ _ hmem d hd).2
  · exact (hharmless i _ _ _ hmem).2.2
  · have hexcused : m.Excused False := hthreads i _ hi
    cases m with
    | addExecutionEngine => rfl
    | parseGetViewReply | getEngineState | getPersistentMgr => exact hexcused.elim

/-! ## A pass over an engine with a free slot -/

section Example

/-- An ephemeral manager and a client on the host of the engine, and a persistent manager. -/
def peersReply : GetViewReply where
  view := [{ name := "manager:EPHEMERAL:MANAGED:h", uri := "h:1" },
    { name := "manager:FAKE_PERSISTANT:MANAGED:p", uri := "p:1", key := ["in"] }]
  client := [{ name := "client:h", uri := "h:2" }]

/-- The second name has a storage that the enum does not declare. -/
def brokenReply : GetViewReply where
  view := [{ name := "manager:EPHEMERAL:MANAGED:h", uri := "h:1" },
    { name := "manager:TAPE:MANAGED:q", uri := "q:1", key := ["in"] }]

/-- An engine and its peers come up, the parsing of a reply stops halfway, and a task is pending;
the decision for it stays blank. -/
def onePass : List SchedulerThreadEvent :=
  [.spawn (SchedulerThread.introduce ⟨"h:3", "h:2", 1⟩),
    .spawn (SchedulerThread.parseGetViewReply peersReply),
    .spawn (SchedulerThread.controlPass id),
    .spawn (SchedulerThread.parseGetViewReply brokenReply),
    .step 2 ⟨_, .getView, (.ok, {})⟩,
    .step 0 ⟨_, .addExecutionEngine "h:3" "h:2" 1, .ok ()⟩,
    .step 3 ⟨_, .parseGetViewReply brokenReply, .error .assertion⟩,
    .step 1 ⟨_, .parseGetViewReply peersReply, .ok ()⟩,
    .step 2 ⟨_, .getPendingTasks, ["t"]⟩,
    .step 2 ⟨_, .getJobData "t", ⟨1⟩⟩,
    .step 2 ⟨_, .getSchedulableEngines, ["h:3"]⟩,
    .step 2 ⟨_, .getEngineState "h:3",
      .ok ⟨"h:3", "client:h", "manager:EPHEMERAL:MANAGED:h", 0, 1⟩⟩,
    .step 2 ⟨_, .getTaskData "t", ⟨⟨"t", "in", ""⟩⟩⟩,
    .step 2 ⟨_, .getPersistentMgrForFile "in", .ok "manager:FAKE_PERSISTANT:MANAGED:p"⟩,
    .step 2 ⟨_, .tasksScheduled [{}], ()⟩,
    .step 2 ⟨_, .getEngineState "", .ok { runningTasks := 1 }⟩,
    .step 2 ⟨_, .execute "" {}, .unavailable⟩]

theorem scheduler_step {starts : SchedulerThread Unit → Prop} {v : ServerlessSystemView}
    {ts : List (SchedulerThread Unit)} (i : ℕ) {β : Type} {c : SchedulerCall β} {b : β}
    {k : β → SchedulerThread Unit} (hi : ts[i]? = some (.call c k)) (h : c.Answers v b) :
    SchedulerStep starts ⟨v, ts⟩ (.step i ⟨β, c, b⟩) ⟨c.effect v, ts.set i (k b)⟩ :=
  .step hi ⟨β, c, k, b, rfl, ⟨rfl, h, rfl⟩, rfl⟩

theorem reaches_onePass : ∃ P, Reaches (SchedulerStep (Starts True)) ⟨startView, []⟩ onePass P :=
  ⟨_, .cons (.spawn (.introduce _)) (.cons (.spawn (.parseGetViewReply _ trivial))
    (.cons (.spawn (.controlPass _)) (.cons (.spawn (.parseGetViewReply _ trivial))
    (.cons (scheduler_step 2 rfl trivial) (.cons (scheduler_step 0 rfl rfl)
    (.cons (scheduler_step 3 rfl rfl) (.cons (scheduler_step 1 rfl rfl)
    (.cons (scheduler_step 2 rfl trivial) (.cons (scheduler_step 2 rfl trivial)
    (.cons (scheduler_step 2 rfl ⟨["h:3"], by decide, rfl⟩) (.cons (scheduler_step 2 rfl rfl)
    (.cons (scheduler_step 2 rfl trivial) (.cons (scheduler_step 2 rfl rfl)
    (.cons (scheduler_step 2 rfl trivial) (.cons (scheduler_step 2 rfl rfl)
    (.cons (scheduler_step 2 rfl trivial) .nil))))))))))))))))⟩

theorem only_blank_tasks_onePass :
    ∃ P, Reaches (SchedulerStep (Starts True)) ⟨startView, []⟩ onePass P ∧
      ∀ i request status, .step i ⟨_, .installRule request, status⟩ ∉ onePass := by
  obtain ⟨P, hP⟩ := reaches_onePass
  exact ⟨P, hP, (only_blank_tasks hP).1⟩

/-- The engine comes up, and its host stays unknown. -/
def idlePass : List SchedulerThreadEvent :=
  [.spawn (SchedulerThread.introduce ⟨"h:3", "h:2", 1⟩),
    .step 0 ⟨_, .addExecutionEngine "h:3" "h:2" 1, .ok ()⟩,
    .spawn (SchedulerThread.controlPass id), .step 1 ⟨_, .getView, (.ok, peersReply)⟩,
    .step 1 ⟨_, .getPendingTasks, ["t"]⟩, .step 1 ⟨_, .getJobData "t", ⟨1⟩⟩,
    .step 1 ⟨_, .getSchedulableEngines, []⟩, .step 1 ⟨_, .tasksScheduled [], ()⟩]

theorem control_thread_never_schedules_idlePass :
    ∃ P, Reaches (SchedulerStep (Starts False)) ⟨startView, []⟩ idlePass P ∧
      ∀ order, Enumerates order P.state.engineToState →
        P.state.getSchedulableEngines order = [] := by
  have hrun : ∃ P, Reaches (SchedulerStep (Starts False)) ⟨startView, []⟩ idlePass P :=
    ⟨_, .cons (.spawn (.introduce _)) (.cons (scheduler_step 0 rfl rfl)
      (.cons (.spawn (.controlPass _)) (.cons (scheduler_step 1 rfl trivial)
      (.cons (scheduler_step 1 rfl trivial) (.cons (scheduler_step 1 rfl trivial)
      (.cons (scheduler_step 1 rfl ⟨["h:3"], by decide, rfl⟩)
      (.cons (scheduler_step 1 rfl trivial) .nil)))))))⟩
  obtain ⟨P, hP⟩ := hrun
  exact ⟨P, hP, (control_thread_never_schedules hP).1⟩

end Example

end Scheduler

end ProgrammableCaching
