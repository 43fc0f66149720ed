import ProgrammableCaching.RuleHistory
import ProgrammableCaching.SchedulerThreads
import ProgrammableCaching.ViewAgreement
import ProgrammableCaching.WorkConservation

/-! `Scheduler::Execute` against the storage service. The rules that the loop body of `Schedule`
builds from one view never contradict each other, so however many tasks a client is given rules for,
each of them finds its own. -/

namespace ProgrammableCaching

open UnorderedMap Runs Pools

/-! ## The rules of a decision -/

/-- The GET rule for reading a file at a manager. -/
def readRule (file name : String) : Rule where
  opType := .get
  key := file
  action := [.get { key := file, mgr := { name } }]

/-- The PUT rule for writing a file at a manager. -/
def writeRule (file name : String) : Rule where
  opType := .put
  key := file
  action := [.put { key := file, mgr := { name } }]

/-- The rules that the scheduler builds from its view. -/
inductive ServerlessSystemView.Issues (v : ServerlessSystemView) (o : SystemOrder) : Rule → Prop
  | read {file name : String} (h : v.getPersistentMgrForFile file = .ok name) :
      Issues v o (readRule file name)
  | write {file name : String} (h : v.getPersistentMgrForPut o.persistantKeys file = .ok name) :
      Issues v o (writeRule file name)

section Issues

variable {v : ServerlessSystemView} {o : SystemOrder} {jobView : JobView} {r r' : Rule}

/-- There is one rule for each operation on each key. -/
theorem issues_unique (h : v.Issues o r) (h' : v.Issues o r')
    (hkey : RuleDb.getRuleKey r.key r.opType = RuleDb.getRuleKey r'.key r'.opType) : r = r' := by
  cases h with
  | read h =>
      cases h' with
      | read h' =>
          obtain ⟨_, rfl⟩ := (RuleDb.getRuleKey_inj (by trivial)).mp hkey
          cases h.symm.trans h'
          rfl
      | write h' => exact absurd hkey (RuleDb.getRuleKey_get_ne_put _ _)
  | write h =>
      cases h' with
      | read h' => exact absurd hkey.symm (RuleDb.getRuleKey_get_ne_put _ _)
      | write h' =>
          obtain ⟨_, rfl⟩ := (RuleDb.getRuleKey_inj (by trivial)).mp hkey
          cases h.symm.trans h'
          rfl

/-- The manager for writing a file has some file. -/
theorem exists_file_of_put {order : List String} {file name : String}
    (h : v.getPersistentMgrForPut order file = .ok name) :
    ∃ first, v.getPersistentMgrForFile first = .ok name := by
  unfold ServerlessSystemView.getPersistentMgrForPut at h
  split at h
  · exact ⟨_, h⟩
  · cases h

/-- The loop body of `Schedule` fills in issued rules only. -/
theorem issues_of_fillDecision {engine task : String} {d : Decision}
    (h : Scheduler.fillDecision v o jobView engine task {} = .ok d) :
    ∀ r ∈ d.rules, v.Issues o r := by
  have hfound := Scheduler.found_of_fillDecision h
  by_cases hinput : (jobView.getTaskData task).t.inputFile = "" <;>
    by_cases houtput : (jobView.getTaskData task).t.outputFile = ""
  · simp [Scheduler.fillDecision, hinput, houtput, pure, Except.pure, bind, Except.bind] at h
    simp [← h]
  · obtain ⟨name, hname⟩ := hfound.output houtput
    simp [Scheduler.fillDecision, hinput, houtput, hname, pure, Except.pure, bind, Except.bind] at h
    simpa [← h, writeRule] using ServerlessSystemView.Issues.write hname
  · obtain ⟨name, hname⟩ := hfound.input hinput
    simp [Scheduler.fillDecision, hinput, houtput, hname, pure, Except.pure, bind, Except.bind] at h
    simpa [← h, readRule] using ServerlessSystemView.Issues.read hname
  · obtain ⟨name, hname⟩ := hfound.input hinput
    obtain ⟨name', hname'⟩ := hfound.output houtput
    simp [Scheduler.fillDecision, hinput, houtput, hname, hname', pure, Except.pure, bind,
      Except.bind] at h
    simpa [← h, readRule, writeRule] using ⟨ServerlessSystemView.Issues.read hname,
      ServerlessSystemView.Issues.write hname'⟩

end Issues

/-! ## Rules that are sent out -/

namespace System

variable {σ : Type} {s s' s'' : System σ} {uri client : String} {r : Rule} {issued : Rule → Prop}

/-- The client at `uri` has the rule, with the addresses of the managers. -/
def HasRule (s : System σ) (uri : String) (r : Rule) : Prop :=
  ∃ d, s.clients.lookup uri = some d ∧
    StorageClient.FindsRule d r.key r.opType (r.resolve s.addressOf)

/-- The master can send the client rules. -/
def Listens (s : System σ) (client : String) : Prop :=
  s.world.master.peerTracker.Tracked client ∧ (s.clients.lookup (s.addressOf client)).isSome

/-- The clients have been sent some more of the issued rules. -/
structure Extends (issued : Rule → Prop) (s s' : System σ) : Prop where
  world : s'.world = s.world
  listening : ∀ uri, (s.clients.lookup uri).isSome → (s'.clients.lookup uri).isSome
  rules : ∀ uri r, issued r → s.HasRule uri r → s'.HasRule uri r

theorem Extends.refl (issued : Rule → Prop) (s : System σ) : Extends issued s s :=
  ⟨rfl, fun _ => id, fun _ _ _ => id⟩

theorem Extends.trans (h : Extends issued s s') (h' : Extends issued s' s'') :
    Extends issued s s'' :=
  ⟨h'.world.trans h.world, fun uri => h'.listening uri ∘ h.listening uri,
    fun uri r hr => h'.rules uri r hr ∘ h.rules uri r hr⟩

theorem Extends.addressOf (h : Extends issued s s') : s'.addressOf = s.addressOf := by
  funext name
  simp only [System.addressOf, h.world]

theorem Extends.listens (h : Extends issued s s') (hlistens : s.Listens client) :
    s'.Listens client := by
  refine ⟨?_, ?_⟩
  · rw [h.world]
    exact hlistens.1
  · rw [h.addressOf]
    exact h.listening _ hlistens.2

/-- Where there is one issued rule for each operation on each key, sending one of them takes
none away. -/
theorem extends_installRule (hunique : ∀ r r', issued r → issued r' →
      RuleDb.getRuleKey r.key r.opType = RuleDb.getRuleKey r'.key r'.opType → r = r')
    (hissued : issued r) (hlistens : s.Listens client)
    (hnames : ∀ name ∈ r.managerNames, s.world.master.peerTracker.Tracked name) :
    ∃ s', installRule ⟨client, r⟩ s = .ok (.ok, s') ∧ Extends issued s s' ∧
      s'.HasRule (s.addressOf client) r := by
  obtain ⟨d, hd⟩ := Option.isSome_iff_exists.mp hlistens.2
  refine ⟨_, installRule_of_tracked hlistens.1 hd hnames, ⟨rfl, fun uri hsome => ?_, ?_⟩,
    _, lookup_setRules _ _ _, ?_⟩
  · change ((s.clients.insert _ _).lookup uri).isSome
    rw [lookup_insert_ite]
    split
    · rfl
    · exact hsome
  · rintro uri r' hr' ⟨d', hd', hfinds⟩
    by_cases huri : uri = s.addressOf client
    · subst huri
      obtain rfl := Option.some.inj (hd.symm.trans hd')
      refine ⟨_, lookup_setRules _ _ _, ?_⟩
      change (d.addRule _).ruleDb.lookup _ = _
      rw [RuleDb.addRule, lookup_insert_ite]
      split
      · rename_i hkey
        rw [hunique r' r hr' hissued hkey]
        rfl
      · exact hfinds
    · refine ⟨d', ?_, hfinds⟩
      change (s.clients.insert _ _).lookup uri = some d'
      rw [lookup_insert_ite]
      exact (if_neg huri).trans hd'
  · change (d.addRule _).ruleDb.lookup _ = _
    rw [RuleDb.addRule, lookup_insert_ite]
    exact if_pos rfl

section Requests

variable [StorageInterface σ] [LawfulStorage σ] {file name : String}

/-- A client with the GET rule of a file answers with what the manager holds. -/
theorem get_of_readRule (hrule : s.HasRule uri (readRule file name))
    (hrun : s.world.Running (s.addressOf name)) :
    ∃ s', get uri ⟨file⟩ s =
        .ok ((.ok, { value := (s.world.value (s.addressOf name) file).getD "" }), s') ∧
      s'.world.value = s.world.value := by
  obtain ⟨d, hd, hfinds⟩ := hrule
  have hrunning : ∀ a ∈ ((readRule file name).resolve s.addressOf).action, ∀ uri ∈ a.target,
      s.world.Running uri := by
    simpa [readRule, Rule.resolve, Action.resolve, Action.target] using hrun
  obtain ⟨w, hget, hdone⟩ := @StorageClient.get_runs _ _ _ d ⟨file⟩ s.world _ [] _ hfinds rfl rfl
    (by simp) hrunning
  refine ⟨{ s with world := w }, ?_, hdone.value⟩
  simp only [get, hd, hget]
  rfl

/-- A client with the PUT rule of a file stores it at the manager, and the master learns of it. -/
theorem put_of_writeRule (hrule : s.HasRule uri (writeRule file name))
    (hrun : s.world.Running (s.addressOf name)) (value : String) :
    ∃ s', put uri ⟨file, value⟩ s = .ok (.ok, s') ∧
      s'.world.value = Replicas.set s.world.value (s.addressOf name) file (some value) ∧
      s'.world.master.fileView.Lists name file := by
  obtain ⟨d, hd, hfinds⟩ := hrule
  have hrunning : ∀ a ∈ ((writeRule file name).resolve s.addressOf).action, ∀ uri ∈ a.target,
      s.world.Running uri := by
    simpa [writeRule, Rule.resolve, Action.resolve, Action.target] using hrun
  obtain ⟨w, hput, hdone⟩ := @StorageClient.put_runs _ _ _ d ⟨file, value⟩ s.world _ hfinds
    (by simp [writeRule, Rule.resolve, Action.resolve, Action.isPutOf]) hrunning
  refine ⟨{ s with world := w }, ?_, hdone.value, ?_⟩
  · simp only [put, hd, hput]
    rfl
  · rw [hdone.master]
    simp [writeRule, Rule.resolve, Action.resolve, Action.reported, StorageMaster.storageChange,
      StorageMaster.changeView]

end Requests

end System

/-! ## Execute -/

namespace SchedulerThread

variable {σ : Type}

/-- The calls of a scheduler that has the view `v`, when they are delivered to the service. The
status that an exception of the master comes back as is not looked at. -/
def serve (o : SystemOrder) (jobView : JobView) (v : ServerlessSystemView) {β : Type} :
    SchedulerCall β → StateT (System σ) (Except (ThrowingMethod × Failure)) β
  | .installRule request => fun s =>
      match System.installRule request s with
      | .ok (status, s') => .ok (status, s')
      | .error _ => .ok (.unavailable, s)
  | c => fun s => .ok (c.answer o jobView v, s)

variable {o : SystemOrder} {jobView : JobView} {v : ServerlessSystemView} {s : System σ}

/-- The rules for one client all get there. -/
theorem eval_sendRules {issued : Rule → Prop} {client : String} {rules : List Rule}
    (hunique : ∀ r r', issued r → issued r' →
      RuleDb.getRuleKey r.key r.opType = RuleDb.getRuleKey r'.key r'.opType → r = r')
    (hissued : ∀ r ∈ rules, issued r) (hlistens : s.Listens client)
    (hnames : ∀ r ∈ rules, ∀ name ∈ r.managerNames, s.world.master.peerTracker.Tracked name) :
    ∃ s', (rules.forM fun rule => do
        let _status ← Prog.perform (.installRule { client, rule }) : SchedulerThread Unit).eval
          (serve o jobView v) s = .ok ((), s') ∧
      s.Extends issued s' ∧ ∀ r ∈ rules, s'.HasRule (s.addressOf client) r := by
  have hsend : ∀ r ∈ rules, ∀ t, s.Extends issued t → ∃ u,
      (do let _status ← Prog.perform (.installRule { client, rule := r }) :
        SchedulerThread Unit).eval (serve o jobView v) t = .ok ((), u) ∧
      t.Extends issued u ∧ issued r ∧ u.HasRule (s.addressOf client) r := by
    intro r hr t hle
    obtain ⟨u, hok, hextends, hrule⟩ := System.extends_installRule hunique (hissued r hr)
      (hle.listens hlistens) (by rw [hle.world]; exact hnames r hr)
    rw [hle.addressOf] at hrule
    refine ⟨u, ?_, hextends, hissued r hr, hrule⟩
    have hcall : (Prog.perform (.installRule ⟨client, r⟩) : SchedulerThread Status).eval
        (serve o jobView v) t = .ok (.ok, u) := by
      simp only [Prog.eval_perform, serve, hok]
    exact Prog.eval_bind_of_ok hcall
  obtain ⟨s', heval, hextends, hrules⟩ := Prog.eval_forM (System.Extends.refl issued)
    (fun _ _ _ => System.Extends.trans)
    (fun r t u hr hle => ⟨hr.1, hle.rules _ r hr.1 hr.2⟩) hsend
  exact ⟨s', heval, hextends, fun r hr => (hrules r hr).2⟩

theorem eval_getEngineState {engine : String} {state : EngineState}
    (h : v.getEngineState engine = .ok state) :
    (attempt .getEngineState (.getEngineState engine)).eval (serve o jobView v) s =
      .ok (state, s) := by
  have hcall : (Prog.perform (.getEngineState engine) : SchedulerThread _).eval
      (serve o jobView v) s = .ok (.ok state, s) := by
    simp only [Prog.eval_perform, serve, SchedulerCall.answer, h]
  exact Prog.eval_bind_of_ok hcall

/-- The rules of all decisions get to the clients of their engines. -/
theorem eval_execute {issued : Rule → Prop} {decisions : SchedulingDecisions}
    (hunique : ∀ r r', issued r → issued r' →
      RuleDb.getRuleKey r.key r.opType = RuleDb.getRuleKey r'.key r'.opType → r = r')
    (hissued : ∀ d ∈ decisions, ∀ r ∈ d.rules, issued r)
    (hclients : ∀ d ∈ decisions, ∃ state, v.getEngineState d.engine = .ok state ∧
      s.Listens state.clientName)
    (hnames : ∀ r, issued r → ∀ name ∈ r.managerNames,
      s.world.master.peerTracker.Tracked name) :
    ∃ s', (execute decisions).eval (serve o jobView v) s = .ok ((), s') ∧ s.Extends issued s' ∧
      ∀ d ∈ decisions, ∀ state, v.getEngineState d.engine = .ok state →
        ∀ r ∈ d.rules, s'.HasRule (s.addressOf state.clientName) r := by
  have hdecision : ∀ d ∈ decisions, ∀ t, s.Extends issued t → ∃ u,
      (do
        let s ← attempt .getEngineState (.getEngineState d.engine)
        d.rules.forM fun rule => do
          let _status ← Prog.perform (.installRule { client := s.clientName, rule })
        let _status ← Prog.perform (.execute d.engine d.task) : SchedulerThread Unit).eval
          (serve o jobView v) t = .ok ((), u) ∧
      t.Extends issued u ∧ ∀ state, v.getEngineState d.engine = .ok state →
        ∀ r ∈ d.rules, issued r ∧ u.HasRule (s.addressOf state.clientName) r := by
    intro d hd t hle
    obtain ⟨state, hstate, hlistens⟩ := hclients d hd
    have htracked : ∀ r ∈ d.rules, ∀ name ∈ r.managerNames,
        t.world.master.peerTracker.Tracked name := by
      rw [hle.world]
      exact fun r hr => hnames r (hissued d hd r hr)
    obtain ⟨u, heval, hextends, hrules⟩ := @eval_sendRules σ o jobView v t issued
      state.clientName d.rules hunique (hissued d hd) (hle.listens hlistens) htracked
    rw [hle.addressOf] at hrules
    refine ⟨u, ?_, hextends, fun state' hstate' r hr => ⟨hissued d hd r hr, ?_⟩⟩
    · rw [Prog.eval_bind_of_ok (eval_getEngineState hstate)]
      exact Prog.eval_bind_of_ok heval
    · cases hstate.symm.trans hstate'
      exact hrules r hr
  obtain ⟨s', heval, hextends, hrules⟩ := Prog.eval_forM (System.Extends.refl issued)
    (fun _ _ _ => System.Extends.trans)
    (fun d t u hd hle state hstate r hr => (hd state hstate r hr).imp_right
      (hle.rules _ r (hd state hstate r hr).1)) hdecision
  exact ⟨s', heval, hextends, fun d hd state hstate r hr => (hrules d hd state hstate r hr).2⟩

/-- The client reads the input file of the task from the manager that the view has for it, and
stores the output file at the one chosen for it. The managers hold in `s'` what they hold in `s`. -/
structure Serves [StorageInterface σ] [LawfulStorage σ] (v : ServerlessSystemView) (o : SystemOrder)
    (s s' : System σ) (client : String) (task : Task) : Prop where
  input : task.inputFile ≠ "" → ∃ name, v.getPersistentMgrForFile task.inputFile = .ok name ∧
    ∃ s'', System.get (s.addressOf client) ⟨task.inputFile⟩ s' =
        .ok ((.ok, ⟨(s.world.value (s.addressOf name) task.inputFile).getD ""⟩), s'') ∧
      s''.world.value = s.world.value
  output : task.outputFile ≠ "" → ∃ name,
    v.getPersistentMgrForPut o.persistantKeys task.outputFile = .ok name ∧
    ∀ value, ∃ s'', System.put (s.addressOf client) ⟨task.outputFile, value⟩ s' = .ok (.ok, s'') ∧
      s''.world.value =
        Replicas.set s.world.value (s.addressOf name) task.outputFile (some value) ∧
      s''.world.master.fileView.Lists name task.outputFile

/-- **Each task finds its own rules.** However many decisions are executed, for whichever engines,
when the loop body of `Schedule` has filled them in from one view: if the engines are known and
their clients listen, and the managers that the view knows run at the addresses of their names,
`Execute` comes to its end with the managers and the master as they were, and then the client of
each decision does what its task needs. -/
theorem execute_serves_tasks [StorageInterface σ] [LawfulStorage σ]
    {decisions : SchedulingDecisions}
    (hbuilt : ∀ d ∈ decisions, ∃ engine task,
      Scheduler.fillDecision v o jobView engine task {} = .ok d)
    (hclients : ∀ d ∈ decisions, ∃ state, v.getEngineState d.engine = .ok state ∧
      s.Listens state.clientName)
    (hmanagers : ∀ file name, v.getPersistentMgrForFile file = .ok name →
      s.world.master.peerTracker.Tracked name ∧ s.world.Running (s.addressOf name)) :
    ∃ s', (execute decisions).eval (serve o jobView v) s = .ok ((), s') ∧ s'.world = s.world ∧
      ∀ d ∈ decisions, ∀ state, v.getEngineState d.engine = .ok state →
        Serves v o s s' state.clientName d.task := by
  have hfile : ∀ r, v.Issues o r → ∀ name ∈ r.managerNames,
      ∃ file, v.getPersistentMgrForFile file = .ok name := by
    intro r hr name hname
    cases hr with
    | read h =>
        obtain rfl : name = _ := List.mem_singleton.mp hname
        exact ⟨_, h⟩
    | write h =>
        obtain rfl : name = _ := List.mem_singleton.mp hname
        exact exists_file_of_put h
  have hissued : ∀ d ∈ decisions, ∀ r ∈ d.rules, v.Issues o r := by
    intro d hd
    obtain ⟨engine, task, hfill⟩ := hbuilt d hd
    exact issues_of_fillDecision hfill
  have htracked : ∀ r, v.Issues o r → ∀ name ∈ r.managerNames,
      s.world.master.peerTracker.Tracked name := by
    intro r hr name hname
    obtain ⟨file, h⟩ := hfile r hr name hname
    exact (hmanagers file name h).1
  obtain ⟨s', heval, hextends, hrules⟩ := @eval_execute σ o jobView v s (v.Issues o) decisions
    (fun _ _ => issues_unique) hissued hclients htracked
  refine ⟨s', heval, hextends.world, fun d hd state hstate => ?_⟩
  obtain ⟨engine, task, hfill⟩ := hbuilt d hd
  obtain ⟨d', hfill', _, _, hruled⟩ :=
    Scheduler.fillDecision_spec (Scheduler.found_of_fillDecision hfill) engine
  obtain rfl := Except.ok.inj (hfill.symm.trans hfill')
  have hworld := hextends.world
  have haddress := hextends.addressOf
  constructor
  · intro hinput
    obtain ⟨name, hname, hmem⟩ := hruled.input hinput
    refine ⟨name, hname, ?_⟩
    rw [← hworld, ← haddress]
    refine System.get_of_readRule ?_ ?_
    · rw [haddress]
      exact hrules d hd state hstate _ hmem
    · rw [hworld, haddress]
      exact (hmanagers _ name hname).2
  · intro houtput
    obtain ⟨name, hname, hmem⟩ := hruled.output houtput
    obtain ⟨file, hname'⟩ := exists_file_of_put hname
    refine ⟨name, hname, fun value => ?_⟩
    rw [← hworld, ← haddress]
    refine System.put_of_writeRule ?_ ?_ value
    · rw [haddress]
      exact hrules d hd state hstate _ hmem
    · rw [hworld, haddress]
      exact (hmanagers file name hname').2

section Example

open World.TwoManagers

/-- The engine `h:3` uses the client, and each manager has a file. -/
def dispatchView : ServerlessSystemView where
  ephemeral := .ephemeral
  persistant := .fakePersistant
  engineToState := (∅ : UMap String EngineState).insert "h:3"
    { name := "h:3", clientName := "client:c", ephemeralName := first.name, maximumTasks := 2 }
  persistantKeyToMgr :=
    ((∅ : UMap String String).insert "k" first.name).insert "log" second.name

def dispatchOrder : SystemOrder where
  engines := ["h:3"]
  persistantKeys := ["log", "k"]

/-- One task copies `k` to a new file, the other only reads the log. -/
def dispatchJobs : JobView where
  getJobData _ := ⟨1⟩
  getTaskData task := ⟨if task = "copy" then ⟨"copy", "k", "out"⟩ else ⟨"read", "log", ""⟩⟩

def dispatched : SchedulingDecisions :=
  [⟨"h:3", ⟨"copy", "k", "out"⟩, [readRule "k" first.name, writeRule "out" second.name]⟩,
    ⟨"h:3", ⟨"read", "log", ""⟩, [readRule "log" second.name]⟩]

theorem dispatchView_file {file name : String}
    (h : dispatchView.getPersistentMgrForFile file = .ok name) :
    name = first.name ∨ name = second.name := by
  have hlookup : dispatchView.persistantKeyToMgr.lookup file =
      if file = "log" then some second.name
        else if file = "k" then some first.name else none := by
    rw [dispatchView, lookup_insert_ite, lookup_insert_ite, Finmap.lookup_empty]
  rw [ServerlessSystemView.getPersistentMgrForFile, hlookup] at h
  split_ifs at h <;> cases h
  · exact .inr rfl
  · exact .inl rfl

theorem execute_serves_tasks_dispatched :
    ∃ s', (execute dispatched).eval (serve dispatchOrder dispatchJobs dispatchView)
        System.twoManagerService = .ok ((), s') ∧ s'.world = System.twoManagerService.world ∧
      ∀ d ∈ dispatched, ∀ state, dispatchView.getEngineState d.engine = .ok state →
        Serves dispatchView dispatchOrder System.twoManagerService s' state.clientName d.task := by
  have hengine : dispatchView.getEngineState "h:3" =
      .ok ⟨"h:3", "client:c", first.name, 0, 2⟩ := rfl
  refine execute_serves_tasks ?_ ?_ ?_
  · intro d hd
    rcases List.mem_pair.mp hd with rfl | rfl
    · exact ⟨"h:3", "copy", by decide⟩
    · exact ⟨"h:3", "read", by decide⟩
  · intro d hd
    have hlistens : System.twoManagerService.Listens "client:c" := ⟨by decide, by decide⟩
    rcases List.mem_pair.mp hd with rfl | rfl <;> exact ⟨_, hengine, hlistens⟩
  · intro file name h
    rcases dispatchView_file h with rfl | rfl
    · exact ⟨by decide, by decide⟩
    · exact ⟨by decide, by decide⟩

end Example

end SchedulerThread

end ProgrammableCaching
