import ProgrammableCaching.Library.Contracts
import ProgrammableCaching.Faults
import ProgrammableCaching.MasterThreads
import ProgrammableCaching.System

/-! The handlers that send rules to the clients, while peers introduce themselves. `InstallRule` and
`RemoveRule` look names up one at a time, without a lock, and call the client when they have all
addresses, so much may happen between the first lookup and the moment when the rule arrives. -/

namespace ProgrammableCaching

open UnorderedMap Handler Pools Runs Contracts

namespace StorageMaster

/-- The address of the client and the request that is sent to it, which is the one that came. -/
def removeRule (m : StorageMaster) (request : RemoveRuleRequest) :
    Except Failure (String × RemoveRuleRequest) := do
  let p ← m.peerTracker.getPeerFromName request.client
  return (p.rpcUri, request)

end StorageMaster

namespace System

variable {σ : Type}

/-- `StorageMaster::RemoveRule` without anything in between: pass the rule to the client as it
came. -/
def masterRemoveRule (request : RemoveRuleRequest) : Handler (System σ) Status := fun s => do
  let (uri, newRequest) ← s.world.master.removeRule request
  match s.clients.lookup uri with
  | some d =>
      let (status, d') := StorageClient.removeRule d newRequest
      return (status, s.setRules uri d')
  | none => return (.unavailable, s)

/-- The clients have the same rules, and the master tracks the same addresses. -/
def Same (s s' : System σ) : Prop :=
  s'.clients = s.clients ∧ s'.world.master.peerTracker = s.world.master.peerTracker

end System

/-! ## The handlers, one access at a time -/

/-- What is done without a lock of the master. -/
inductive UnlockedStep : Type → Type
  /-- `PeerTracker::GetPeerFromName`. -/
  | getPeerFromName (name : String) : UnlockedStep (Except Failure Peer)
  /-- A call through the stub of the client at `uri`. -/
  | clientInstallRule (uri : String) (request : InstallRuleRequest) : UnlockedStep Status
  | clientRemoveRule (uri : String) (request : RemoveRuleRequest) : UnlockedStep Status
  /-- A new client begins to listen. -/
  | listen (uri : String) : UnlockedStep Unit
  /-- A step of a manager, or of a client that handles a `Get` or a `Put`. -/
  | other : UnlockedStep Unit

/-- One step of a handler. -/
inductive ServiceCall (β : Type) : Type
  | locked (c : LockedStep β)
  | unlocked (c : UnlockedStep β)

/-- A handler of the master, the start of a client, or what is left of one. -/
abbrev ServiceThread := Prog ServiceCall Failure

namespace ServiceThread

variable {α : Type}

def getPeerFromName (name : String) : ServiceThread Peer := do
  lift (← Prog.perform (.unlocked (.getPeerFromName name)))

def fillInAction : Action → ServiceThread Action
  | .get a => do
      let p ← getPeerFromName a.mgr.name
      return .get { a with mgr := { a.mgr with uri := p.rpcUri } }
  | .copyFrom a => do
      let p ← getPeerFromName a.srcMgr.name
      let q ← getPeerFromName a.dstMgr.name
      return .copyFrom { a with
        srcMgr := { a.srcMgr with uri := p.rpcUri }
        dstMgr := { a.dstMgr with uri := q.rpcUri } }
  | .remove a => do
      let p ← getPeerFromName a.mgr.name
      return .remove { a with mgr := { a.mgr with uri := p.rpcUri } }
  | .put a => do
      let p ← getPeerFromName a.mgr.name
      return .put { a with mgr := { a.mgr with uri := p.rpcUri } }
  | .notSet => return .notSet

def fillInRule (rule : Rule) : ServiceThread Rule := do
  let action ← rule.action.mapM fillInAction
  return { rule with action }

/-- `StorageMaster::InstallRule`. -/
def installRule (request : InstallRuleRequest) : ServiceThread Status := do
  let p ← getPeerFromName request.client
  let rule ← fillInRule request.rule
  Prog.perform (.unlocked (.clientInstallRule p.rpcUri { request with rule }))

/-- `StorageMaster::RemoveRule`. -/
def removeRule (request : RemoveRuleRequest) : ServiceThread Status := do
  let p ← getPeerFromName request.client
  Prog.perform (.unlocked (.clientRemoveRule p.rpcUri request))

/-- A handler that always holds a lock. -/
def ofMaster : MasterThread α → ServiceThread α
  | .done a => .done a
  | .fail e => .fail e
  | .call c k => .call (.locked c) fun b => ofMaster (k b)

/-- `StorageClient::Start` of a client that has been made for it. The introduction may get lost; the
client does not look at its status. -/
def startClient (peer hostname port : String) (arrives : Bool) : ServiceThread Unit := do
  if arrives then
    let _reply ← ofMaster (MasterThread.introduce peer
      (.storageClient { rpcHostname := hostname, rpcPort := port }))
  Prog.perform (.unlocked (.listen (StorageMaster.rpcUri hostname port)))

end ServiceThread

/-- What the threads are started for. A client that is stopped and started again is not a new one:
calls to it get lost in between, and it introduces itself once more. -/
inductive ServiceRequest
  | installRule (request : InstallRuleRequest)
  | removeRule (request : RemoveRuleRequest)
  | master (request : MasterCall)
  | startClient (peer hostname port : String) (arrives : Bool)
  /-- Rules that are sent to a client past the master. -/
  | clientInstallRule (uri : String) (request : InstallRuleRequest)
  | clientRemoveRule (uri : String) (request : RemoveRuleRequest)
  | other
  deriving DecidableEq, Repr

namespace ServiceRequest

/-- The thread that handles the request; what it replies does not matter here. -/
def handler : ServiceRequest → ServiceThread Unit
  | installRule request => ServiceThread.installRule request >>= fun _ => pure ()
  | removeRule request => ServiceThread.removeRule request >>= fun _ => pure ()
  | master request => ServiceThread.ofMaster request.code >>= fun _ => pure ()
  | startClient peer hostname port arrives => ServiceThread.startClient peer hostname port arrives
  | clientInstallRule uri request =>
      Prog.perform (.unlocked (.clientInstallRule uri request)) >>= fun _ => pure ()
  | clientRemoveRule uri request =>
      Prog.perform (.unlocked (.clientRemoveRule uri request)) >>= fun _ => pure ()
  | other => Prog.perform (.unlocked .other)

/-- The address that a server starts at, or that a rule is sent to past the master. -/
def address : ServiceRequest → Option String
  | master (.update (.introduce _ request)) => request.address
  | startClient _ hostname port _ => some (StorageMaster.rpcUri hostname port)
  | clientInstallRule uri _ | clientRemoveRule uri _ => some uri
  | installRule _ | removeRule _ | master (.update (.storageChange _)) | master .getView => none
  | other => none

end ServiceRequest

/-! ## What a step does -/

namespace System

variable {σ : Type}

/-- A call to the client at `uri`; the request or the reply may get lost. -/
def callClient (s : System σ) (delivery : Delivery) (uri : String)
    (call : RuleDb → Status × RuleDb) : Status × System σ :=
  match s.clients.lookup uri, delivery with
  | none, _ => (.unavailable, s)
  | some _, .requestLost => (.unavailable, s)
  | some d, .replyLost => (.unavailable, s.setRules uri (call d).2)
  | some d, .delivered => ((call d).1, s.setRules uri (call d).2)

end System

/-- What the step may answer and do. -/
def UnlockedStep.Serves {σ β : Type} (delivery : Delivery) :
    UnlockedStep β → System σ → β → System σ → Prop
  | getPeerFromName name, s, b, s' => b = s.world.master.peerTracker.getPeerFromName name ∧ s' = s
  | clientInstallRule uri request, s, b, s' =>
      (b, s') = s.callClient delivery uri fun d => StorageClient.installRule d request
  | clientRemoveRule uri request, s, b, s' =>
      (b, s') = s.callClient delivery uri fun d => StorageClient.removeRule d request
  | listen uri, s, _, s' => s' = s.setRules uri {}
  | other, s, _, s' => System.Same s s'

def ServiceCall.Serves {σ β : Type} (delivery : Delivery) :
    ServiceCall β → System σ → β → System σ → Prop
  | locked c, s, b, s' => ∃ o master, s.world.master.fileView.TraversedBy o ∧
      c.handle o s.world.master = .ok (b, master) ∧
      s' = { s with world := { s.world with master } }
  | unlocked c, s, b, s' => c.Serves delivery s b s'

/-- What is seen of a step: the call, whether it gets through, and the answer. -/
abbrev ServiceCallSeen := Σ β, ServiceCall β × Delivery × β

def ServiceServe {σ β : Type} (c : ServiceCall β) (s : System σ) (l : ServiceCallSeen) (b : β)
    (s' : System σ) : Prop :=
  ∃ delivery, l = ⟨β, c, delivery, b⟩ ∧ c.Serves delivery s b s'

abbrev ServiceThreadEvent := Pools.Event (ServiceThread Unit) ServiceCallSeen

/-- A request in `allowed` comes in, or one of the threads takes a step. -/
abbrev ServiceThreadStep {σ : Type} (allowed : ServiceRequest → Prop) :
    Pool (System σ) (ServiceThread Unit) → ServiceThreadEvent →
      Pool (System σ) (ServiceThread Unit) → Prop :=
  PoolStep (fun p => ∃ request, allowed request ∧ p = request.handler) (CallStep ServiceServe)

/-! ## Threads that are not interrupted -/

/-- The step when its call gets through. -/
def UnlockedStep.handle {σ β : Type} : UnlockedStep β → Handler (System σ) β
  | getPeerFromName name => fun s => .ok (s.world.master.peerTracker.getPeerFromName name, s)
  | clientInstallRule uri request => fun s =>
      .ok (s.callClient .delivered uri fun d => StorageClient.installRule d request)
  | clientRemoveRule uri request => fun s =>
      .ok (s.callClient .delivered uri fun d => StorageClient.removeRule d request)
  | listen uri => fun s => .ok ((), s.setRules uri {})
  | other => fun s => .ok ((), s)

/-- The tables are traversed in the order `o`. -/
def ServiceCall.handle {σ : Type} (o : ViewOrder) {β : Type} : ServiceCall β → Handler (System σ) β
  | locked c => fun s => do
      let (b, master) ← c.handle o s.world.master
      return (b, { s with world := { s.world with master } })
  | unlocked c => c.handle

theorem ServiceCall.serves_handle {σ β : Type} {o : ViewOrder} {c : ServiceCall β}
    {s s' : System σ} {b : β} (ho : s.world.master.fileView.TraversedBy o)
    (h : c.handle o s = .ok (b, s')) : c.Serves .delivered s b s' := by
  cases c with
  | locked c =>
      obtain ⟨⟨b', master⟩, hok, heq⟩ := exceptBind_ok.mp h
      cases heq
      exact ⟨o, master, ho, hok, rfl⟩
  | unlocked c =>
      cases c with
      | getPeerFromName | listen =>
          cases h
          first | exact ⟨rfl, rfl⟩ | exact rfl
      | clientInstallRule | clientRemoveRule => exact (Except.ok.inj h).symm
      | other =>
          cases h
          exact ⟨rfl, rfl⟩

namespace ServiceThread

variable {σ α β : Type} {o : ViewOrder} {s : System σ}

abbrev alone (o : ViewOrder) (p : ServiceThread α) : Handler (System σ) α :=
  p.eval (ServiceCall.handle o)

/-- The code comes to the result `x` and leaves everything as it is. -/
def Reads (o : ViewOrder) (s : System σ) (p : ServiceThread α) (x : Except Failure α) : Prop :=
  alone o p s = x.map fun a => (a, s)

theorem reads_pure (a : α) : Reads o s (pure a) (pure a) := rfl

theorem Reads.bind {p : ServiceThread α} {x : Except Failure α} {f : α → ServiceThread β}
    {g : α → Except Failure β} (hp : Reads o s p x) (hf : ∀ a, Reads o s (f a) (g a)) :
    Reads o s (p >>= f) (x >>= g) := by
  unfold Reads alone at *
  rw [Prog.eval_bind, bind_apply, hp]
  cases x with
  | error e => rfl
  | ok a => exact hf a

theorem reads_getPeerFromName (name : String) :
    Reads o s (getPeerFromName name) (s.world.master.peerTracker.getPeerFromName name) := by
  unfold Reads alone getPeerFromName
  rw [Prog.eval_bind, bind_apply, Prog.eval_perform]
  simp only [ServiceCall.handle, UnlockedStep.handle]
  cases s.world.master.peerTracker.getPeerFromName name <;> rfl

theorem reads_fillInAction (a : Action) :
    Reads o s (fillInAction a) (StorageMaster.fillInAction s.world.master.peerTracker a) := by
  cases a with
  | get a | remove a | put a => exact (reads_getPeerFromName _).bind fun _ => reads_pure _
  | copyFrom a =>
      exact (reads_getPeerFromName _).bind fun _ =>
        (reads_getPeerFromName _).bind fun _ => reads_pure _
  | notSet => exact reads_pure _

theorem reads_fillInRule (rule : Rule) :
    Reads o s (fillInRule rule) (StorageMaster.fillInRule s.world.master.peerTracker rule) := by
  have hactions : ∀ actions : List Action, Reads o s (actions.mapM fillInAction)
      (actions.mapM (StorageMaster.fillInAction s.world.master.peerTracker)) := by
    intro actions
    induction actions with
    | nil => exact reads_pure _
    | cons a rest ih =>
        rw [List.mapM_cons, List.mapM_cons]
        exact (reads_fillInAction a).bind fun _ => ih.bind fun _ => reads_pure _
  exact (hactions rule.action).bind fun _ => reads_pure _

/-- An `InstallRule` that is not interrupted is the handler. -/
theorem alone_installRule (request : InstallRuleRequest) :
    alone o (installRule request) s = System.installRule request s := by
  have hread : Reads o s (do
      let p ← getPeerFromName request.client
      let rule ← fillInRule request.rule
      return (p.rpcUri, { request with rule })) (s.world.master.installRule request) :=
    (reads_getPeerFromName _).bind fun _ => (reads_fillInRule _).bind fun _ => reads_pure _
  have hsplit : installRule request = (do
      let p ← getPeerFromName request.client
      let rule ← fillInRule request.rule
      return (p.rpcUri, { request with rule })) >>= fun r : String × InstallRuleRequest =>
        Prog.perform (.unlocked (.clientInstallRule r.1 r.2)) := by
    simp only [installRule, bind_assoc, pure_bind]
  unfold Reads alone at hread
  rw [hsplit, alone, Prog.eval_bind, bind_apply, hread, System.installRule]
  cases s.world.master.installRule request with
  | error e => rfl
  | ok r =>
      simp only [Except.map, Prog.eval_perform, ServiceCall.handle, UnlockedStep.handle,
        System.callClient]
      cases hd : s.clients.lookup r.1 <;> simp [bind, Except.bind, pure, Except.pure, hd]

/-- A `RemoveRule` that is not interrupted is the handler. -/
theorem alone_removeRule (request : RemoveRuleRequest) :
    alone o (removeRule request) s = System.masterRemoveRule request s := by
  have hread := reads_getPeerFromName (o := o) (s := s) request.client
  unfold Reads alone at hread
  rw [removeRule, alone, Prog.eval_bind, bind_apply, hread, System.masterRemoveRule,
    StorageMaster.removeRule]
  cases s.world.master.peerTracker.getPeerFromName request.client with
  | error e => rfl
  | ok p =>
      simp only [Except.map, Prog.eval_perform, ServiceCall.handle, UnlockedStep.handle,
        System.callClient]
      cases hd : s.clients.lookup p.rpcUri <;> simp [bind, Except.bind, pure, Except.pure, hd]

theorem alone_ofMaster (p : MasterThread α) : alone o (ofMaster p) s =
    (MasterThread.alone o p s.world.master).map fun r =>
      (r.1, { s with world := { s.world with master := r.2 } }) := by
  induction p generalizing s with
  | done a => rfl
  | fail e => rfl
  | call c k ih =>
      simp only [ofMaster, alone, MasterThread.alone, Prog.eval_call, bind_apply]
      cases hc : c.handle o s.world.master with
      | error e => simp [ServiceCall.handle, hc, bind, Except.bind, Except.map]
      | ok r =>
          simp only [ServiceCall.handle, hc, bind, Except.bind, pure, Except.pure]
          exact ih r.1

/-- A start that is not interrupted is the start of the client. -/
theorem alone_startClient (peer hostname port : String) :
    alone o (startClient peer hostname port true) s =
      .ok ((), s.startClient peer hostname port) := by
  let request : IntroduceRequest :=
    .storageClient { rpcHostname := hostname, rpcPort := port }
  let master := (s.world.master.introduce peer request).2.2
  have hintroduce : alone o (ofMaster (MasterThread.introduce peer request)) s =
      .ok ((.ok, ⟨StorageMaster.generateName request⟩),
        { s with world := { s.world with master } }) := by
    rw [alone_ofMaster, MasterThread.introduce_eq_script, MasterThread.alone_script]
    rfl
  exact Prog.eval_bind_of_ok hintroduce

end ServiceThread

/-! ## What the handlers call -/

/-- The action with an address for each manager that it names, one that `κ` knows for the name. -/
inductive Action.FilledIn (κ : String → String → Prop) : Action → Action → Prop
  | get {a : GetAction} {uri : String} : κ a.mgr.name uri →
      FilledIn κ (.get a) (.get { a with mgr := { a.mgr with uri } })
  | copyFrom {a : CopyFromAction} {source dest : String} : κ a.srcMgr.name source →
      κ a.dstMgr.name dest → FilledIn κ (.copyFrom a) (.copyFrom { a with
        srcMgr := { a.srcMgr with uri := source }, dstMgr := { a.dstMgr with uri := dest } })
  | remove {a : RemoveAction} {uri : String} : κ a.mgr.name uri →
      FilledIn κ (.remove a) (.remove { a with mgr := { a.mgr with uri } })
  | put {a : PutAction} {uri : String} : κ a.mgr.name uri →
      FilledIn κ (.put a) (.put { a with mgr := { a.mgr with uri } })
  | notSet : FilledIn κ .notSet .notSet

theorem Action.FilledIn.mono {κ κ' : String → String → Prop} (hle : κ ≤ κ') {a b : Action}
    (h : a.FilledIn κ b) : a.FilledIn κ' b := by
  cases h with
  | get h => exact .get (hle _ _ h)
  | copyFrom hsource hdest => exact .copyFrom (hle _ _ hsource) (hle _ _ hdest)
  | remove h => exact .remove (hle _ _ h)
  | put h => exact .put (hle _ _ h)
  | notSet => exact .notSet

/-- The request with the addresses of its managers, and else as it came. -/
def InstallRuleRequest.FilledIn (κ : String → String → Prop) (request sent : InstallRuleRequest) :
    Prop :=
  ∃ action, sent = { request with rule := { request.rule with action } } ∧
    List.Forall₂ (Action.FilledIn κ) request.rule.action action

/-- The handler of the request makes the call, when `κ` are the addresses that it has been told. -/
def UnlockedStep.MadeFor {β : Type} (κ : String → String → Prop) (request : ServiceRequest) :
    UnlockedStep β → Prop
  | getPeerFromName _ => True
  | clientInstallRule uri sent =>
      (∃ install, request = .installRule install ∧ κ install.client uri ∧
        install.FilledIn κ sent) ∨ request = .clientInstallRule uri sent
  | clientRemoveRule uri sent =>
      (request = .removeRule sent ∧ κ sent.client uri) ∨ request = .clientRemoveRule uri sent
  | listen uri => ∃ peer hostname port arrives,
      request = .startClient peer hostname port arrives ∧ uri = StorageMaster.rpcUri hostname port
  | other => request = .other

def LockedStep.MadeFor {β : Type} (request : ServiceRequest) : LockedStep β → Prop
  | update u => (∃ e, request = .master (.update e) ∧ u ∈ e.updates) ∨
      ∃ peer hostname port arrives, request = .startClient peer hostname port arrives ∧
        u ∈ MasterThread.introduceUpdates peer
          (.storageClient { rpcHostname := hostname, rpcPort := port })
  | populateFiles _ | populateUris _ => request = .master .getView

def ServiceCall.MadeFor {β : Type} (κ : String → String → Prop) (request : ServiceRequest) :
    ServiceCall β → Prop
  | locked c => c.MadeFor request
  | unlocked c => c.MadeFor κ request

/-- A lookup that finds the name tells its address. -/
def UnlockedStep.Tells {β : Type} (κ : String → String → Prop) : UnlockedStep β → β → Prop
  | getPeerFromName name, b => ∀ p, b = .ok p → κ name p.rpcUri
  | clientInstallRule _ _, _ | clientRemoveRule _ _, _ | listen _, _ | other, _ => True

def ServiceCall.Tells {β : Type} (κ : String → String → Prop) : ServiceCall β → β → Prop
  | locked _, _ => True
  | unlocked c, b => c.Tells κ b

/-- The thread with the code `p` makes the calls of a request that it is the handler of. -/
def serviceContract (allowed : ServiceRequest → Prop) (p : ServiceThread Unit) :
    Contract ServiceCall Failure (String → String → Prop) where
  requires c κ := ∃ request, allowed request ∧ p = request.handler ∧ c.MadeFor κ request
  ensures c b κ := c.Tells κ b
  excuses _ := True

namespace ServiceThread

section Contracts

variable {allowed : ServiceRequest → Prop} {κ : String → String → Prop} {α : Type}
  {request : ServiceRequest}

theorem requires_of_madeFor (h : allowed request) {β : Type} {c : ServiceCall β}
    (hc : c.MadeFor κ request) : (serviceContract allowed request.handler).requires c κ :=
  ⟨request, h, rfl, hc⟩

theorem meets_getPeerFromName (h : allowed request) (name : String) :
    Meets (serviceContract allowed request.handler) (fun p κ => κ name p.rpcUri)
      (getPeerFromName name) κ := by
  refine fun κ₁ _ => ⟨requires_of_madeFor h trivial, fun b κ₂ _ htells => ?_⟩
  cases b with
  | error e => exact trivial
  | ok p => exact fun κ₃ hle => hle _ _ (htells p rfl)

theorem meets_fillInAction (h : allowed request) (a : Action) :
    Meets (serviceContract allowed request.handler) (fun b κ => a.FilledIn κ b) (fillInAction a)
      κ := by
  cases a with
  | get a =>
      refine (meets_getPeerFromName h _).bind fun p κ₁ _ hp => meets_pure fun κ₂ hle => ?_
      exact .get (hle _ _ hp)
  | copyFrom a =>
      refine (meets_getPeerFromName h _).bind fun p κ₁ _ hp => ?_
      refine (meets_getPeerFromName h _).bind fun q κ₂ hle hq => meets_pure fun κ₃ hle' => ?_
      exact .copyFrom (hle.trans hle' _ _ hp) (hle' _ _ hq)
  | remove a =>
      refine (meets_getPeerFromName h _).bind fun p κ₁ _ hp => meets_pure fun κ₂ hle => ?_
      exact .remove (hle _ _ hp)
  | put a =>
      refine (meets_getPeerFromName h _).bind fun p κ₁ _ hp => meets_pure fun κ₂ hle => ?_
      exact .put (hle _ _ hp)
  | notSet => exact meets_pure fun _ _ => .notSet

theorem meets_fillInRule (h : allowed request) (rule : Rule) :
    Meets (serviceContract allowed request.handler)
      (fun filled κ => ∃ action, filled = { rule with action } ∧
        List.Forall₂ (Action.FilledIn κ) rule.action action) (fillInRule rule) κ := by
  refine (meets_mapM_forall₂ (fun _ _ _ _ hle hab => hab.mono hle)
    fun a _ κ' _ => meets_fillInAction h a).bind fun action κ₁ _ hactions => ?_
  exact meets_pure fun κ₂ hle => ⟨action, rfl, hactions.imp fun _ _ hab => hab.mono hle⟩

theorem meets_script {us : List TableUpdate} (h : allowed request)
    (hus : ∀ u ∈ us, (LockedStep.update u).MadeFor request) (a : α) :
    Meets (serviceContract allowed request.handler) (fun _ _ => True)
      (ofMaster (MasterThread.script us a)) κ := by
  induction us generalizing κ with
  | nil => exact fun _ _ => trivial
  | cons u us ih =>
      refine fun κ₁ _ => ⟨requires_of_madeFor h (hus u (by simp)), fun _ κ₂ _ _ => ih ?_⟩
      exact fun u' hu' => hus u' (by simp [hu'])

theorem meets_call {β : Type} {c : ServiceCall β} (h : allowed request)
    (hc : ∀ κ', κ ≤ κ' → c.MadeFor κ' request) :
    Meets (serviceContract allowed request.handler) (fun _ _ => True)
      (Prog.perform c : ServiceThread β) κ :=
  meets_perform (fun κ' hle => requires_of_madeFor h (hc κ' hle)) fun _ _ _ _ _ _ => trivial

theorem meets_installRule {request : InstallRuleRequest} (h : allowed (.installRule request)) :
    Meets (serviceContract allowed (ServiceRequest.installRule request).handler) (fun _ _ => True)
      (installRule request) κ := by
  refine (meets_getPeerFromName h _).bind fun p κ₁ _ hp => ?_
  refine (meets_fillInRule h _).bind fun rule κ₂ hle hrule => ?_
  obtain ⟨action, rfl, hactions⟩ := hrule
  refine meets_call h fun κ₃ hle' => .inl ⟨request, rfl, hle.trans hle' _ _ hp, action, rfl, ?_⟩
  exact hactions.imp fun a b hab => hab.mono hle'

theorem meets_removeRule {request : RemoveRuleRequest} (h : allowed (.removeRule request)) :
    Meets (serviceContract allowed (ServiceRequest.removeRule request).handler) (fun _ _ => True)
      (removeRule request) κ := by
  refine (meets_getPeerFromName h _).bind fun p κ₁ _ hp => ?_
  exact meets_call h fun κ₂ hle => .inl ⟨rfl, hle _ _ hp⟩

theorem meets_code {request : MasterCall} (h : allowed (.master request)) :
    Meets (serviceContract allowed (ServiceRequest.master request).handler) (fun _ _ => True)
      (ofMaster request.code) κ := by
  cases request with
  | update e =>
      rw [MasterThread.code_update]
      exact meets_script h (fun u hu => .inl ⟨e, rfl, hu⟩) _
  | getView =>
      refine fun κ₁ _ => ⟨requires_of_madeFor h rfl, fun reply κ₂ _ _ => ?_⟩
      exact fun κ₃ _ => ⟨requires_of_madeFor h rfl, fun _ _ _ _ _ _ => trivial⟩

theorem meets_startClient {peer hostname port : String} {arrives : Bool}
    (h : allowed (.startClient peer hostname port arrives)) :
    Meets (serviceContract allowed (ServiceRequest.startClient peer hostname port arrives).handler)
      (fun _ _ => True) (startClient peer hostname port arrives) κ := by
  have hlisten : ∀ κ, Meets
      (serviceContract allowed (ServiceRequest.startClient peer hostname port arrives).handler)
      (fun _ _ => True) (Prog.perform
        (.unlocked (.listen (StorageMaster.rpcUri hostname port))) : ServiceThread Unit) κ :=
    fun κ => meets_call h fun _ _ => ⟨peer, hostname, port, arrives, rfl, rfl⟩
  cases arrives with
  | false => exact hlisten κ
  | true =>
      refine Meets.bind (Q := fun _ _ => True) ?_ fun _ κ₁ _ _ => hlisten κ₁
      rw [MasterThread.introduce_eq_script]
      exact meets_script h (fun u hu => .inr ⟨peer, hostname, port, true, rfl, hu⟩) _

/-- The handler of a request makes its own calls only. -/
theorem meets_handler (h : allowed request) :
    Meets (serviceContract allowed request.handler) (fun _ _ => True) request.handler κ := by
  have hreply : ∀ {α : Type} {p : ServiceThread α},
      Meets (serviceContract allowed request.handler) (fun _ _ => True) p κ →
        Meets (serviceContract allowed request.handler) (fun _ _ => True)
          (p >>= fun _ => pure ()) κ :=
    fun hp => hp.bind fun _ _ _ _ => meets_pure fun _ _ => trivial
  cases request with
  | installRule request => exact hreply (meets_installRule h)
  | removeRule request => exact hreply (meets_removeRule h)
  | master request => exact hreply (meets_code h)
  | startClient peer hostname port arrives => exact meets_startClient h
  | clientInstallRule uri request => exact hreply (meets_call h fun _ _ => .inr rfl)
  | clientRemoveRule uri request => exact hreply (meets_call h fun _ _ => .inr rfl)
  | other => exact meets_call h fun _ _ => rfl

end Contracts

variable {σ : Type} {allowed : ServiceRequest → Prop} {s : System σ}
  {es : List ServiceThreadEvent} {P : Pool (System σ) (ServiceThread Unit)}

/-- The thread has been told the address. -/
def Told (es : List ServiceThreadEvent) (i : ℕ) (name uri : String) : Prop :=
  ∃ pre p delivery post, p.rpcUri = uri ∧
    es = pre ++ .step i ⟨_, .unlocked (.getPeerFromName name), delivery, .ok p⟩ :: post

theorem Told.append {i : ℕ} {name uri : String} (h : Told es i name uri)
    (es' : List ServiceThreadEvent) : Told (es ++ es') i name uri := by
  obtain ⟨pre, p, delivery, post, hp, rfl⟩ := h
  exact ⟨pre, p, delivery, post ++ es', hp, by simp⟩

/-- Every thread makes the calls of a request that it is the handler of, with the addresses that it
has been told. -/
theorem meets_of_run (hrun : Reaches (ServiceThreadStep allowed) ⟨s, []⟩ es P) (i : ℕ)
    (p : ServiceThread Unit) (hi : P.threads[i]? = some p) : ∃ p₀, (spawned es)[i]? = some p₀ ∧
      Meets (serviceContract allowed p₀) (fun _ _ => True) p (Told es i) := by
  refine (meets_own_of_reaches (I := fun _ _ => True) (fun i es _ => Told es i) trivial ?_ ?_
    hrun).2 i p hi
  · rintro es s _ _ ⟨request, hallowed, rfl⟩
    exact ⟨fun i name uri h => h.append _, trivial, meets_handler hallowed⟩
  · rintro es i p s s' l β c b _ _ _ ⟨delivery, rfl, _⟩
    refine ⟨fun i name uri h => h.append _, trivial, ?_⟩
    cases c with
    | locked c => trivial
    | unlocked c =>
        cases c with
        | getPeerFromName name =>
            rintro p rfl
            exact ⟨es, p, delivery, [], rfl, rfl⟩
        | clientInstallRule | clientRemoveRule | listen | other => trivial

/-- Each call of a run is one of a request whose handler the thread is. -/
theorem madeFor_of_step {i : ℕ} {β : Type} {c : ServiceCall β} {delivery : Delivery} {b : β}
    {Q : Pool (System σ) (ServiceThread Unit)}
    (hrun : Reaches (ServiceThreadStep allowed) ⟨s, []⟩ es P)
    (hstep : ServiceThreadStep allowed P (.step i ⟨β, c, delivery, b⟩) Q) :
    c.Serves delivery P.state b Q.state ∧ ∃ request, allowed request ∧
      (spawned es)[i]? = some request.handler ∧ c.MadeFor (Told es i) request := by
  cases hstep with
  | step hi hcall =>
      obtain ⟨β, c, k, b, rfl, ⟨delivery, hl, hserves⟩, _⟩ := hcall
      cases hl
      obtain ⟨p₀, hp₀, hmeets⟩ := meets_of_run hrun i _ hi
      obtain ⟨⟨request, hallowed, rfl, hmade⟩, _⟩ := hmeets _ le_rfl
      exact ⟨hserves, request, hallowed, hp₀, hmade⟩

end ServiceThread

end ProgrammableCaching
