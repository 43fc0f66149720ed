import ProgrammableCaching.Library.Directory
import ProgrammableCaching.Library.Runs
import ProgrammableCaching.MasterView
import ProgrammableCaching.System

/-! Runs of the storage service, one operation at a time, and when the master's
view agrees with what the managers hold. The manager that a copy reads keeps its
key, but `StorageChange` takes the key out of that manager's view. -/

namespace ProgrammableCaching

open UnorderedMap Replicas Directory Runs

namespace Action

/-- The storage operation of an action, with the managers under their names. -/
def namedOp (v : String) : Action → Option (Op String String String)
  | .copyFrom a => some (.copy a.srcMgr.name a.dstMgr.name a.key)
  | .remove a => some (.remove a.mgr.name a.key)
  | .put a => some (.put a.mgr.name a.key v)
  | .get _ | .notSet => none

def namedOps (v : String) (actions : List Action) : List (Op String String String) :=
  actions.filterMap (namedOp v)

/-- The action puts or removes the key at the manager, or copies it to or from
there. -/
def Concerns (name key : String) : Action → Prop
  | .copyFrom a => (a.srcMgr.name = name ∨ a.dstMgr.name = name) ∧ a.key = key
  | .remove a => a.mgr.name = name ∧ a.key = key
  | .put a => a.mgr.name = name ∧ a.key = key
  | .get _ | .notSet => False

instance (name key : String) (a : Action) : Decidable (a.Concerns name key) := by
  cases a <;> unfold Concerns <;> infer_instance

theorem not_isRemove_of_put {key : String} {a : Action} (h : a.isCopy ∨ a.isPutOf key) :
    ¬ a.isRemove := by
  cases a <;> simp_all [isCopy, isPutOf, isRemove]

/-- Every copy of the list is followed by a later action that concerns the key
at the manager the copy reads. -/
def FollowedUp : List Action → Prop
  | [] => True
  | .copyFrom a :: rest => (∃ b ∈ rest, b.Concerns a.dstMgr.name a.key) ∧ FollowedUp rest
  | .get _ :: rest | .remove _ :: rest | .put _ :: rest | .notSet :: rest => FollowedUp rest

theorem concerns_namedOp {name key v : String} {a : Action} :
    a.Concerns name key ↔ ∃ op ∈ a.namedOp v, Directory.Concerns name key op := by
  cases a <;> simp [namedOp, Concerns, Directory.Concerns]

theorem settled_namedOps {v : String} (actions : List Action) :
    Settled (namedOps v actions) ↔ FollowedUp actions := by
  induction actions with
  | nil => rfl
  | cons a rest ih =>
      cases a with
      | get a => exact ih
      | notSet => exact ih
      | remove a => exact ih
      | put a => exact ih
      | copyFrom a =>
          refine and_congr ?_ ih
          simp only [concerns_namedOp (v := v), List.mem_filterMap]
          constructor
          · rintro ⟨op, ⟨b, hb, hop⟩, hc⟩
            exact ⟨b, hb, op, hop, hc⟩
          · rintro ⟨b, hb, op, hop, hc⟩
            exact ⟨op, ⟨b, hb, hop⟩, hc⟩

/-- The manager references of an action carry the addresses of their names. -/
def Resolved (addr : String → String) (a : Action) : Prop :=
  ∀ m ∈ a.managers, m.uri = addr m.name

theorem resolved_resolve (addr : String → String) (a : Action) :
    (a.resolve addr).Resolved addr := by
  cases a <;> simp [Resolved, resolve, managers]

theorem name_of_mem_resolve {addr : String → String} {P : String → Prop} {a : Action}
    (h : ∀ m ∈ a.managers, P m.name) : ∀ m ∈ (a.resolve addr).managers, P m.name := by
  cases a with
  | notSet => exact h
  | _ => simpa [resolve, managers] using h

theorem op_of_resolved {addr : String → String} {v : String} {a : Action} (h : a.Resolved addr) :
    a.op v = (a.namedOp v).map (Op.map addr) := by
  cases a with
  | copyFrom a =>
      simp [op, namedOp, Op.map, h a.srcMgr (by simp [managers]), h a.dstMgr (by simp [managers])]
  | remove a => simp [op, namedOp, Op.map, h a.mgr (by simp [managers])]
  | put a => simp [op, namedOp, Op.map, h a.mgr (by simp [managers])]
  | get a => rfl
  | notSet => rfl

theorem ops_of_resolved {addr : String → String} {v : String} {actions : List Action}
    (h : ∀ a ∈ actions, a.Resolved addr) :
    ops v actions = (namedOps v actions).map (Op.map addr) := by
  rw [ops, namedOps, List.map_filterMap]
  exact List.filterMap_congr fun a ha => op_of_resolved (h a ha)

theorem namedOps_addresses {v : String} {actions : List Action} {S : Set String}
    (h : ∀ a ∈ actions, ∀ m ∈ a.managers, m.name ∈ S) :
    ∀ op ∈ namedOps v actions, ∀ name ∈ op.addresses, name ∈ S := by
  intro op hop name hname
  obtain ⟨a, ha, haop⟩ := List.mem_filterMap.mp hop
  have hm := h a ha
  cases a with
  | get a => cases haop
  | notSet => cases haop
  | remove a => cases haop; simp_all [Op.addresses, managers]
  | put a => cases haop; simp_all [Op.addresses, managers]
  | copyFrom a =>
      cases haop
      simp only [Op.addresses, List.mem_cons, List.not_mem_nil, or_false] at hname
      rcases hname with rfl | rfl
      · exact hm a.srcMgr (by simp [managers])
      · exact hm a.dstMgr (by simp [managers])

/-- `StorageChange` keeps a directory that takes a copy for a move. -/
theorem lists_changeView (v : String) (view : StorageFileView) (a : Action) :
    (StorageMaster.changeView view a).Lists = noteAll view.Lists (a.namedOp v).toList := by
  funext name key
  cases a with
  | get a => rfl
  | notSet => rfl
  | put a => simp [StorageMaster.changeView, namedOp, note, mark_true_iff]
  | remove a => simp [StorageMaster.changeView, namedOp, note, mark_false_iff]
  | copyFrom a =>
      simp [StorageMaster.changeView, namedOp, note, mark_true_iff, mark_false_iff]

theorem lists_reported (v : String) (view : StorageFileView) (actions : List Action) :
    ((reported actions).foldl StorageMaster.changeView view).Lists =
      noteAll view.Lists (namedOps v actions) := by
  induction actions generalizing view with
  | nil => rfl
  | cons a rest ih =>
      have hsplit : namedOps v (a :: rest) = (a.namedOp v).toList ++ namedOps v rest := by
        cases h : a.namedOp v <;> simp [namedOps, h]
      rw [hsplit, noteAll_append, ← lists_changeView, ← ih]
      cases a <;> rfl

end Action

/-! ## Events -/

/-- What drives the service: servers start, rules are installed, and clients are
asked to get and to put. -/
inductive Event (σ : Type)
  | startManager (peer hostname port : String) (storage : σ)
  | startClient (peer hostname port : String)
  | installRule (request : InstallRuleRequest)
  | get (client : String) (request : GetRequest)
  | put (client : String) (request : PutRequest)

namespace System

variable {σ : Type} [StorageInterface σ]

def exec (s : System σ) : Event σ → Except Failure (System σ)
  | .startManager peer hostname port storage => return s.startManager peer hostname port storage
  | .startClient peer hostname port => return s.startClient peer hostname port
  | .installRule request => do
      let (_, s') ← installRule request s
      return s'
  | .get client request => do
      let (_, s') ← get client request s
      return s'
  | .put client request => do
      let (_, s') ← put client request s
      return s'

/-- A manager has introduced itself under `name`. -/
def IsManager (s : System σ) (name : String) : Prop :=
  s.world.master.peerTracker.Tracked name ∧
    ∃ i, StorageMaster.generateName (.storageManager i) = name

def addressOf (s : System σ) (name : String) : String := s.world.master.peerTracker.uriOf name

/-- The actions that an event makes a client execute and report. -/
def executedActions (s : System σ) : Event σ → List Action
  | .get client request =>
      match (s.clients.lookup client).bind
        (·.ruleDb.lookup (RuleDb.getRuleKey request.key .get)) with
      | some r => r.action.dropLast
      | none => []
  | .put client request =>
      match (s.clients.lookup client).bind
        (·.ruleDb.lookup (RuleDb.getRuleKey request.key .put)) with
      | some r => r.action
      | none => []
  | _ => []

variable [LawfulStorage σ]

/-- The runs considered: a manager starts under a new name and at a new address,
rules name managers, a GET rule has copies and removals before its get, a PUT
rule has puts of the key and copies, and every copy finds its key. -/
def Admissible (s : System σ) : Event σ → Prop
  | .startManager _ hostname port storage =>
      ¬ s.world.master.peerTracker.Tracked (StorageMaster.generateName
        (.storageManager (StorageManager.startRequest storage hostname port).1)) ∧
      ¬ s.world.Running (StorageMaster.rpcUri hostname port)
  | .startClient _ _ _ => True
  | .installRule request => ∀ name ∈ request.rule.managerNames, s.IsManager name
  | .get client request =>
      (∀ a ∈ s.executedActions (.get client request), a.isCopy ∨ a.isRemove) ∧
        AllFed "" s.world.value (Action.ops "" (s.executedActions (.get client request)))
  | .put client request =>
      (∀ a ∈ s.executedActions (.put client request), a.isCopy ∨ a.isPutOf request.key) ∧
        AllFed "" s.world.value
          (Action.ops request.value (s.executedActions (.put client request)))

/-- An event of an admissible kind is handled to completion. -/
def Step (s : System σ) (e : Event σ) (s' : System σ) : Prop :=
  s.Admissible e ∧ s.exec e = .ok s'

/-- The master lists a key at a manager exactly when the manager holds it. -/
def ViewAgrees (s : System σ) : Prop :=
  ∀ name, s.IsManager name → ∀ key,
    s.world.master.fileView.Lists name key ↔ (s.world.value (s.addressOf name) key).isSome

/-- What the names mean: every name of a manager is the address of one running
manager, and the rules of the clients carry these addresses. -/
structure Wired (s : System σ) : Prop where
  running : ∀ name, s.IsManager name → s.world.Running (s.addressOf name)
  named : ∀ uri, s.world.Running uri → ∃ name, s.IsManager name ∧ s.addressOf name = uri
  distinct : Set.InjOn s.addressOf {name | s.IsManager name}
  rules : ∀ uri d, s.clients.lookup uri = some d → ∀ k r, d.ruleDb.lookup k = some r →
    ∀ a ∈ r.action, (∀ m ∈ a.managers, s.IsManager m.name) ∧ a.Resolved s.addressOf

/-! ## Starting servers -/

section Start

variable {s : System σ} {peer hostname port : String} {storage : σ}

omit [LawfulStorage σ] in
theorem tracked_startManager (name : String) :
    (s.startManager peer hostname port storage).world.master.peerTracker.Tracked name ↔
      name = StorageMaster.generateName
        (.storageManager (StorageManager.startRequest storage hostname port).1) ∨
      s.world.master.peerTracker.Tracked name := by
  simp [startManager, StorageMaster.introduce, PeerTracker.Tracked, PeerTracker.addPeer]

omit [LawfulStorage σ] in
theorem addressOf_startManager (name : String) :
    (s.startManager peer hostname port storage).addressOf name =
      if name = StorageMaster.generateName
        (.storageManager (StorageManager.startRequest storage hostname port).1)
      then StorageMaster.rpcUri hostname port else s.addressOf name := by
  simp only [addressOf, startManager, StorageMaster.introduce, PeerTracker.uriOf,
    PeerTracker.addPeer, lookup_insert_ite]
  split <;> rfl

omit [LawfulStorage σ] in
theorem running_startManager (uri : String) :
    (s.startManager peer hostname port storage).world.Running uri ↔
      uri = StorageMaster.rpcUri hostname port ∨ s.world.Running uri := by
  simp [startManager, World.Running]

omit [LawfulStorage σ] in
theorem isManager_startManager (name : String) :
    (s.startManager peer hostname port storage).IsManager name ↔
      name = StorageMaster.generateName
        (.storageManager (StorageManager.startRequest storage hostname port).1) ∨
      s.IsManager name := by
  simp only [IsManager, tracked_startManager, or_and_right]
  exact or_congr_left ⟨fun h => h.1, fun h => ⟨h, _, h.symm⟩⟩

omit [StorageInterface σ] [LawfulStorage σ] in
theorem isManager_startClient (name : String) :
    (s.startClient peer hostname port).IsManager name ↔ s.IsManager name := by
  simp only [IsManager]
  refine and_congr_left ?_
  rintro ⟨i, rfl⟩
  have hne := StorageMaster.generateName_manager_ne_client i
    { rpcHostname := hostname, rpcPort := port }
  simp [startClient, setRules, StorageMaster.introduce, PeerTracker.Tracked,
    PeerTracker.addPeer, hne]

omit [StorageInterface σ] [LawfulStorage σ] in
theorem addressOf_startClient {name : String} (h : s.IsManager name) :
    (s.startClient peer hostname port).addressOf name = s.addressOf name := by
  obtain ⟨_, i, rfl⟩ := h
  have hne := StorageMaster.generateName_manager_ne_client i
    { rpcHostname := hostname, rpcPort := port }
  simp [addressOf, startClient, setRules, StorageMaster.introduce, PeerTracker.uriOf,
    PeerTracker.addPeer, hne]

end Start

omit [StorageInterface σ] [LawfulStorage σ] in
/-- Rules stay resolved as long as the managers they name keep their addresses. -/
theorem rules_mono {s s' : System σ} {a : Action}
    (hkeep : ∀ name, s.IsManager name → s'.IsManager name ∧ s'.addressOf name = s.addressOf name)
    (h : (∀ m ∈ a.managers, s.IsManager m.name) ∧ a.Resolved s.addressOf) :
    (∀ m ∈ a.managers, s'.IsManager m.name) ∧ a.Resolved s'.addressOf :=
  ⟨fun m hm => (hkeep _ (h.1 m hm)).1, fun m hm => by
    rw [(hkeep _ (h.1 m hm)).2]
    exact h.2 m hm⟩

theorem Wired.startManager {s : System σ} (h : Wired s) {peer hostname port : String}
    {storage : σ} (hadm : s.Admissible (.startManager peer hostname port storage)) :
    Wired (s.startManager peer hostname port storage) := by
  obtain ⟨hname, hport⟩ := hadm
  have hkeep : ∀ name, s.IsManager name →
      (s.startManager peer hostname port storage).IsManager name ∧
      (s.startManager peer hostname port storage).addressOf name = s.addressOf name := by
    intro name hm
    have hne : name ≠ StorageMaster.generateName
        (.storageManager (StorageManager.startRequest storage hostname port).1) := by
      rintro rfl
      exact hname hm.1
    exact ⟨(isManager_startManager name).mpr (.inr hm), by rw [addressOf_startManager, if_neg hne]⟩
  have hnew : (s.startManager peer hostname port storage).addressOf
      (StorageMaster.generateName (.storageManager
        (StorageManager.startRequest storage hostname port).1)) =
      StorageMaster.rpcUri hostname port := by
    rw [addressOf_startManager, if_pos rfl]
  have hfresh : ∀ name, s.IsManager name →
      s.addressOf name ≠ StorageMaster.rpcUri hostname port :=
    fun name hm heq => hport (heq ▸ h.running name hm)
  constructor
  · intro name hm
    rw [running_startManager]
    rcases (isManager_startManager name).mp hm with rfl | hold
    · exact .inl hnew
    · exact .inr ((hkeep name hold).2 ▸ h.running name hold)
  · intro uri hrun
    rcases (running_startManager uri).mp hrun with rfl | hold
    · exact ⟨_, (isManager_startManager _).mpr (.inl rfl), hnew⟩
    · obtain ⟨name, hm, rfl⟩ := h.named uri hold
      exact ⟨name, hkeep name hm⟩
  · intro name hm name' hm' heq
    rcases (isManager_startManager name).mp hm with rfl | hold <;>
      rcases (isManager_startManager name').mp hm' with rfl | hold'
    · rfl
    · rw [hnew, (hkeep name' hold').2] at heq
      exact absurd heq.symm (hfresh name' hold')
    · rw [hnew, (hkeep name hold).2] at heq
      exact absurd heq (hfresh name hold)
    · rw [(hkeep name hold).2, (hkeep name' hold').2] at heq
      exact h.distinct hold hold' heq
  · intro uri d hd k r hr a ha
    exact rules_mono hkeep (h.rules uri d hd k r hr a ha)

omit [StorageInterface σ] [LawfulStorage σ] in
/-- A step that leaves the managers and their addresses as they are only has to
keep the rules resolved. -/
theorem Wired.of_same {s s' : System σ} (h : Wired s)
    (hman : ∀ name, s'.IsManager name ↔ s.IsManager name)
    (haddr : ∀ name, s.IsManager name → s'.addressOf name = s.addressOf name)
    (hrun : ∀ uri, s'.world.Running uri ↔ s.world.Running uri)
    (hrules : ∀ uri d, s'.clients.lookup uri = some d → ∀ k r, d.ruleDb.lookup k = some r →
      ∀ a ∈ r.action, (∀ m ∈ a.managers, s.IsManager m.name) ∧ a.Resolved s.addressOf) :
    Wired s' where
  running name hm := by
    have hold := (hman name).mp hm
    rw [haddr name hold]
    exact (hrun _).mpr (h.running name hold)
  named uri hu := by
    obtain ⟨name, hm, rfl⟩ := h.named uri ((hrun uri).mp hu)
    exact ⟨name, (hman name).mpr hm, haddr name hm⟩
  distinct name hm name' hm' heq := by
    have hold := (hman name).mp hm
    have hold' := (hman name').mp hm'
    rw [haddr name hold, haddr name' hold'] at heq
    exact h.distinct hold hold' heq
  rules uri d hd k r hr a ha :=
    rules_mono (fun name hm => ⟨(hman name).mpr hm, haddr name hm⟩) (hrules uri d hd k r hr a ha)

omit [StorageInterface σ] [LawfulStorage σ] in
theorem Wired.startClient {s : System σ} (h : Wired s) (peer hostname port : String) :
    Wired (s.startClient peer hostname port) := by
  refine h.of_same isManager_startClient (fun _ => addressOf_startClient) (fun _ => Iff.rfl) ?_
  intro uri d hd k r hr
  change (s.clients.insert (StorageMaster.rpcUri hostname port) {}).lookup uri = some d at hd
  rw [lookup_insert_ite] at hd
  split at hd
  · cases hd
    simp at hr
  · exact h.rules uri d hd k r hr

/-! ## Installing rules -/

omit [StorageInterface σ] [LawfulStorage σ] in
/-- Installing a rule changes nothing but the rules of one client. -/
theorem installRule_ok {s s' : System σ} {request : InstallRuleRequest} {status : Status}
    (hnames : ∀ name ∈ request.rule.managerNames, s.IsManager name)
    (h : installRule request s = .ok (status, s')) :
    s' = s ∨ ∃ uri d, s.clients.lookup uri = some d ∧
      s' = s.setRules uri (d.addRule (request.rule.resolve s.addressOf)) := by
  have htracked : ∀ name ∈ request.rule.managerNames, s.world.master.peerTracker.Tracked name :=
    fun name hn => (hnames name hn).1
  by_cases hclient : s.world.master.peerTracker.Tracked request.client
  · simp only [installRule, StorageMaster.installRule_of_tracked hclient htracked] at h
    simp only [bind, Except.bind] at h
    split at h
    · rename_i d hd
      cases h
      exact .inr ⟨_, d, hd, rfl⟩
    · cases h
      exact .inl rfl
  · have hnone : s.world.master.peerTracker.getPeerFromName request.client =
        .error .outOfRange := by
      simp [PeerTracker.getPeerFromName, Finmap.lookup_eq_none.mpr hclient]
    simp only [installRule, StorageMaster.installRule, hnone] at h
    cases h

omit [StorageInterface σ] [LawfulStorage σ] in
theorem Wired.installRule {s s' : System σ} (h : Wired s) {request : InstallRuleRequest}
    {status : Status} (hnames : ∀ name ∈ request.rule.managerNames, s.IsManager name)
    (hok : System.installRule request s = .ok (status, s')) : Wired s' := by
  rcases installRule_ok hnames hok with rfl | ⟨uri, d, hd, rfl⟩
  · exact h
  refine h.of_same (fun _ => Iff.rfl) (fun _ _ => rfl) (fun _ => Iff.rfl) ?_
  intro uri' d' hd' k r hr a ha
  change (s.clients.insert uri _).lookup uri' = some d' at hd'
  rw [lookup_insert_ite] at hd'
  split at hd'
  · cases hd'
    simp only [RuleDb.addRule, lookup_insert_ite] at hr
    split at hr
    · -- the rule just installed
      cases hr
      obtain ⟨b, hb, rfl⟩ := List.mem_map.mp ha
      have hb' : ∀ m ∈ b.managers, s.IsManager m.name := fun m hm =>
        hnames m.name (List.mem_flatMap.mpr ⟨b, hb, List.mem_map_of_mem hm⟩)
      exact ⟨Action.name_of_mem_resolve hb', Action.resolved_resolve s.addressOf b⟩
    · exact h.rules uri d hd k r hr a ha
  · exact h.rules uri' d' hd' k r hr a ha

/-! ## Gets and puts -/

/-- An operation executed the actions of a rule of its client. -/
structure Operated (s s' : System σ) (v : String) (actions : List Action) : Prop where
  clients : s'.clients = s.clients
  executed : World.Executed (Action.ops v actions) (Action.reported actions) s.world s'.world
  fed : AllFed "" s.world.value (Action.ops v actions)
  ruled : ∃ uri d k r, s.clients.lookup uri = some d ∧ d.ruleDb.lookup k = some r ∧
    ∀ a ∈ actions, a ∈ r.action

theorem operated_get {s s' : System σ} {client : String} {request : GetRequest}
    (h : s.Step (.get client request) s') :
    s' = s ∧ s.executedActions (.get client request) = [] ∨
      Operated s s' "" (s.executedActions (.get client request)) := by
  obtain ⟨⟨_, hfed⟩, hexec⟩ := h
  cases hd : s.clients.lookup client with
  | none =>
      simp only [exec, get, hd] at hexec
      cases hexec
      exact .inl ⟨rfl, by simp [executedActions, hd]⟩
  | some d =>
      simp only [exec, get, hd] at hexec
      cases hget : (StorageClient.get d request : Handler (World σ) _) s.world with
      | error e => rw [hget] at hexec; cases hexec
      | ok r =>
          rw [hget] at hexec
          cases hexec
          obtain ⟨rule, actions, last, hrule, haction, _, _, hdone⟩ := StorageClient.get_ok hget
          have hacts : s.executedActions (.get client request) = actions := by
            have hlookup : d.ruleDb.lookup (RuleDb.getRuleKey request.key .get) = some rule := hrule
            simp [executedActions, hd, hlookup, haction]
          rw [hacts] at hfed ⊢
          exact .inr ⟨rfl, hdone, hfed, client, d, _, rule, hd, hrule,
            fun a ha => by simp [haction, ha]⟩

theorem operated_put {s s' : System σ} {client : String} {request : PutRequest}
    (h : s.Step (.put client request) s') :
    s' = s ∧ s.executedActions (.put client request) = [] ∨
      Operated s s' request.value (s.executedActions (.put client request)) := by
  obtain ⟨⟨hputs, hfed⟩, hexec⟩ := h
  cases hd : s.clients.lookup client with
  | none =>
      simp only [exec, put, hd] at hexec
      cases hexec
      exact .inl ⟨rfl, by simp [executedActions, hd]⟩
  | some d =>
      simp only [exec, put, hd] at hexec
      cases hput : (StorageClient.put d request : Handler (World σ) _) s.world with
      | error e => rw [hput] at hexec; cases hexec
      | ok r =>
          rw [hput] at hexec
          cases hexec
          obtain ⟨rule, hrule, _⟩ := StorageClient.lookup_bind.mp hput
          have hacts : s.executedActions (.put client request) = rule.action := by
            have hlookup : d.ruleDb.lookup (RuleDb.getRuleKey request.key .put) = some rule := hrule
            simp [executedActions, hd, hlookup]
          rw [hacts] at hputs hfed ⊢
          obtain ⟨_, hdone⟩ := StorageClient.put_ok hrule
            (fun a ha => Action.not_isRemove_of_put (hputs a ha)) hput
          exact .inr ⟨rfl, hdone, hfed, client, d, _, rule, hd, hrule, fun _ ha => ha⟩

section Names

variable {s s' : System σ} {v : String} {actions : List Action} (h : Operated s s' v actions)

include h

theorem Operated.peerTracker :
    s'.world.master.peerTracker = s.world.master.peerTracker := by
  rw [h.executed.master]
  rfl

theorem Operated.isManager (name : String) : s'.IsManager name ↔ s.IsManager name := by
  simp only [IsManager, h.peerTracker]

theorem Operated.addressOf : s'.addressOf = s.addressOf := by
  funext name
  simp only [System.addressOf, h.peerTracker]

end Names

theorem Wired.operated {s s' : System σ} (h : Wired s) {v : String} {actions : List Action}
    (hop : Operated s s' v actions) : Wired s' := by
  refine h.of_same hop.isManager (fun name _ => congrFun hop.addressOf name)
    hop.executed.running fun uri d hd => ?_
  rw [hop.clients] at hd
  exact h.rules uri d hd

/-- An operation on a right view leaves it right exactly when every copy it
executes is followed up. -/
theorem viewAgrees_operated_iff {s s' : System σ} (h : Wired s) (hagree : ViewAgrees s)
    {v : String} {actions : List Action} (hop : Operated s s' v actions) :
    ViewAgrees s' ↔ Action.FollowedUp actions := by
  obtain ⟨uri, d, k, r, hd, hr, hmem⟩ := hop.ruled
  have hacts : ∀ a ∈ actions, (∀ m ∈ a.managers, s.IsManager m.name) ∧ a.Resolved s.addressOf :=
    fun a ha => h.rules uri d hd k r hr a (hmem a ha)
  have haddresses := Action.namedOps_addresses (v := v) (S := {name | s.IsManager name})
    fun a ha => (hacts a ha).1
  have hops := Action.ops_of_resolved (v := v) fun a ha => (hacts a ha).2
  have hfed := hop.fed
  rw [hops, allFed_rename h.distinct _ haddresses] at hfed
  have hsettled := matches_iff_settled (Action.namedOps v actions) haddresses hfed
    (d := s.world.master.fileView.Lists) hagree
  rw [Action.settled_namedOps, ← Action.lists_reported] at hsettled
  rw [← hsettled]
  -- both sides speak of the same names, and of what the operations left at their addresses
  have hlists : s'.world.master.fileView.Lists = ((Action.reported actions).foldl
      StorageMaster.changeView s.world.master.fileView).Lists := by
    rw [hop.executed.master]
    rfl
  simp only [ViewAgrees, Matches, hop.isManager, hop.addressOf, hlists, hop.executed.value, hops,
    Set.mem_ofPred_eq]
  refine forall_congr' fun name => forall_congr' fun hname => forall_congr' fun key => ?_
  rw [run_rename h.distinct _ haddresses s.world.value hname]

/-! ## Whole runs -/

theorem viewAgrees_startManager {s : System σ} (h : Wired s) (hagree : ViewAgrees s)
    {peer hostname port : String} {storage : σ}
    (hadm : s.Admissible (.startManager peer hostname port storage)) :
    ViewAgrees (s.startManager peer hostname port storage) := by
  intro name hm key
  have hlists : (s.startManager peer hostname port storage).world.master.fileView.Lists name key ↔
      if StorageMaster.generateName (.storageManager
          (StorageManager.startRequest storage hostname port).1) = name
      then key ∈ (StorageManager.startRequest storage hostname port).1.file
      else s.world.master.fileView.Lists name key :=
    StorageMaster.lists_introduce s.world.master peer _ name key
  rw [hlists, addressOf_startManager]
  by_cases hname : StorageMaster.generateName (.storageManager
      (StorageManager.startRequest storage hostname port).1) = name
  · rw [if_pos hname, if_pos hname.symm, StorageManager.mem_startRequest_file, mem_iff_isSome]
    simp [World.value, startManager]
  · have hold := ((isManager_startManager name).mp hm).resolve_left (Ne.symm hname)
    have hne : s.addressOf name ≠ StorageMaster.rpcUri hostname port :=
      fun heq => hadm.2 (heq ▸ h.running name hold)
    rw [if_neg hname, if_neg (Ne.symm hname), hagree name hold key]
    simp [World.value, startManager, hne]

/-- One step of a run. -/
theorem step_spec {s s' : System σ} {e : Event σ} (h : Wired s) (hstep : s.Step e s') :
    Wired s' ∧ (ViewAgrees s → (ViewAgrees s' ↔ Action.FollowedUp (s.executedActions e))) := by
  cases e with
  | startManager peer hostname port storage =>
      obtain ⟨hadm, hexec⟩ := hstep
      cases hexec
      exact ⟨h.startManager hadm, fun hagree =>
        iff_of_true (viewAgrees_startManager h hagree hadm) trivial⟩
  | startClient peer hostname port =>
      obtain ⟨_, hexec⟩ := hstep
      cases hexec
      refine ⟨h.startClient peer hostname port, fun hagree => iff_of_true ?_ trivial⟩
      intro name hm key
      have hold := (isManager_startClient name).mp hm
      rw [addressOf_startClient hold]
      exact hagree name hold key
  | installRule request =>
      obtain ⟨hadm, hexec⟩ := hstep
      obtain ⟨r, hok, hstate⟩ := exceptBind_ok.mp hexec
      cases hstate
      refine ⟨h.installRule hadm hok, fun hagree => iff_of_true ?_ trivial⟩
      rcases installRule_ok hadm hok with heq | ⟨uri, d, _, heq⟩
      · rw [heq]
        exact hagree
      · rw [heq]
        exact hagree
  | get client request =>
      rcases operated_get hstep with ⟨rfl, hnone⟩ | hop
      · exact ⟨h, fun hagree => iff_of_true hagree (by rw [hnone]; trivial)⟩
      · exact ⟨h.operated hop, fun hagree => viewAgrees_operated_iff h hagree hop⟩
  | put client request =>
      rcases operated_put hstep with ⟨rfl, hnone⟩ | hop
      · exact ⟨h, fun hagree => iff_of_true hagree (by rw [hnone]; trivial)⟩
      · exact ⟨h.operated hop, fun hagree => viewAgrees_operated_iff h hagree hop⟩

omit [StorageInterface σ] [LawfulStorage σ] in
theorem wired_empty : Wired ({} : System σ) where
  running name hm := absurd hm.1 Finmap.notMem_empty
  named uri hu := absurd hu Finmap.notMem_empty
  distinct name hm := absurd hm.1 Finmap.notMem_empty
  rules uri d hd := by simp at hd

theorem wired_of_reaches {s : System σ} {es : List (Event σ)} (h : Reaches Step {} es s) :
    Wired s :=
  h.invariant wired_empty fun _ _ _ hw hstep => (step_spec hw hstep).1

/-- Until a client is asked to execute actions the view is right. -/
theorem viewAgrees_of_reaches {s : System σ} {es : List (Event σ)} (h : Reaches Step {} es s)
    (hidle : ∀ e ∈ es, ∀ t : System σ, t.executedActions e = []) : ViewAgrees s := by
  induction h with
  | nil => exact fun name hm => absurd hm.1 Finmap.notMem_empty
  | @snoc es e t u hr he ih =>
      have hagree := ih fun e' he' => hidle e' (by simp [he'])
      refine ((step_spec (wired_of_reaches hr) he).2 hagree).mpr ?_
      rw [hidle e (by simp)]
      trivial

theorem step_deterministic : Deterministic (@Step σ _ _) := by
  rintro s e s₁ s₂ ⟨_, h₁⟩ ⟨_, h₂⟩
  exact Except.ok.inj (h₁.symm.trans h₂)

/-- **When the master's view agrees with the stores.** In a run of the service,
one operation at a time, the master lists in every state reached exactly the
keys that every manager holds, if and only if every copy a client executes is
followed, in the same rule, by a later action that concerns the key at the
manager the copy reads. -/
theorem viewAgrees_throughout_iff {es : List (Event σ)} {s : System σ}
    (h : Reaches Step {} es s) :
    Throughout (fun es' => ∀ t, Reaches Step {} es' t → ViewAgrees t) es ↔
      EveryStep (fun es' e => ∀ t, Reaches Step {} es' t →
        Action.FollowedUp (t.executedActions e)) es := by
  refine throughout_iff_everyStep ?_ ?_ h.throughout
  · intro t ht
    rw [Reaches.nil_iff.mp ht]
    exact fun name hm => absurd hm.1 Finmap.notMem_empty
  · rintro es e ⟨u, hu⟩ hagree
    obtain ⟨t, ht, hstep⟩ := Reaches.snoc_iff.mp hu
    have hiff := (step_spec (wired_of_reaches ht) hstep).2 (hagree t ht)
    constructor
    · intro hP t' ht'
      obtain rfl := ht.functional step_deterministic ht'
      exact hiff.mp (hP u hu)
    · intro hgood u' hu'
      obtain rfl := hu.functional step_deterministic hu'
      exact hiff.mpr (hgood t ht)

section Example

open World.TwoManagers

/-- The events that lead to `twoManagerService`. -/
def starts : List (Event MapStorage) :=
  [.startManager "p1" "n1" "1" { db := AList.singleton "k" "v" }, .startManager "p2" "n2" "1" {},
    .startClient "p3" "c" "1"]

theorem reaches_starts : Reaches Step {} starts twoManagerService := by
  refine .cons ⟨⟨?_, ?_⟩, rfl⟩ (.cons ⟨⟨?_, ?_⟩, rfl⟩ (.cons ⟨trivial, rfl⟩ .nil))
  all_goals decide

theorem isManager_first : twoManagerService.IsManager first.name :=
  ⟨by decide, { rpcHostname := "n1" }, rfl⟩

theorem isManager_second : twoManagerService.IsManager second.name :=
  ⟨by decide, { rpcHostname := "n2" }, rfl⟩

/-- The client of `twoManagerService` has been given one rule. -/
def oneRule (rule : Rule) : System MapStorage :=
  twoManagerService.setRules "c:1"
    (({} : RuleDb).addRule (rule.resolve twoManagerService.addressOf))

/-- Installing a rule for the two managers at the client, which has the rules
`d`. -/
theorem step_installRule (d : RuleDb) (rule : Rule)
    (h : ∀ name ∈ rule.managerNames, name = first.name ∨ name = second.name) :
    Step (twoManagerService.setRules "c:1" d) (.installRule ⟨"client:c", rule⟩)
      ((twoManagerService.setRules "c:1" d).setRules "c:1"
        (d.addRule (rule.resolve twoManagerService.addressOf))) := by
  have hnames : ∀ name ∈ rule.managerNames, twoManagerService.IsManager name := by
    intro name hname
    rcases h name hname with rfl | rfl
    · exact isManager_first
    · exact isManager_second
  have hclient : twoManagerService.world.master.peerTracker.Tracked "client:c" := by decide
  have hok : installRule ⟨"client:c", rule⟩ (twoManagerService.setRules "c:1" d) = .ok _ :=
    installRule_of_tracked hclient (lookup_setRules _ _ _) fun name hname => (hnames name hname).1
  refine ⟨hnames, ?_⟩
  simp only [exec, hok]
  rfl

theorem reaches_oneRule (rule : Rule)
    (h : ∀ name ∈ rule.managerNames, name = first.name ∨ name = second.name) :
    Reaches Step {} (starts ++ [.installRule ⟨"client:c", rule⟩]) (oneRule rule) :=
  .snoc reaches_starts (step_installRule {} rule h)

/-- A GET rule that copies `k` to the second manager and reads it there. -/
def copyRule : Rule :=
  ⟨.get, "k", [.copyFrom ⟨"k", { name := second.name }, { name := first.name }⟩,
    .get ⟨"k", { name := second.name }⟩]⟩

/-- The rule of the end-to-end test, which also removes `k` where it was. -/
def moveRule : Rule :=
  ⟨.get, "k", [.copyFrom ⟨"k", { name := second.name }, { name := first.name }⟩,
    .remove ⟨"k", { name := first.name }⟩, .get ⟨"k", { name := second.name }⟩]⟩

def getRun (rule : Rule) : List (Event MapStorage) :=
  starts ++ [.installRule ⟨"client:c", rule⟩] ++ [.get "c:1" ⟨"k"⟩]

/-- After the copy both managers hold `k`, but the master lists it only at the
second. -/
theorem copy_leaves_source_unlisted :
    ∃ t, Reaches Step {} (getRun copyRule) t ∧ ¬ ViewAgrees t := by
  have hreach := reaches_oneRule copyRule (by decide)
  obtain ⟨t, ht⟩ : ∃ t, (oneRule copyRule).exec (.get "c:1" ⟨"k"⟩) = .ok t := ⟨_, rfl⟩
  have hstep : Step (oneRule copyRule) (.get "c:1" ⟨"k"⟩) t :=
    ⟨⟨by decide, by decide⟩, ht⟩
  refine ⟨t, .snoc hreach hstep, fun hagree => ?_⟩
  rcases operated_get hstep with ⟨_, hnone⟩ | hop
  · exact absurd hnone (by decide)
  · have hlisted := (hagree first.name ((hop.isManager _).mpr isManager_first) "k").mpr ?_
    · rw [hop.executed.master] at hlisted
      exact absurd hlisted (by decide)
    · rw [hop.addressOf, hop.executed.value]
      decide

/-- A run in which the copy is followed up. -/
theorem viewAgrees_throughout_iff_move :
    Throughout (fun es' => ∀ t, Reaches Step {} es' t → ViewAgrees t) (getRun moveRule) ↔
      EveryStep (fun es' e => ∀ t, Reaches Step {} es' t →
        Action.FollowedUp (t.executedActions e)) (getRun moveRule) := by
  obtain ⟨t, ht⟩ : ∃ t, (oneRule moveRule).exec (.get "c:1" ⟨"k"⟩) = .ok t := ⟨_, rfl⟩
  exact viewAgrees_throughout_iff
    (.snoc (reaches_oneRule moveRule (by decide)) ⟨⟨by decide, by decide⟩, ht⟩)

end Example

end System

end ProgrammableCaching
