import ProgrammableCaching.Library.KeptWrites
import ProgrammableCaching.StorageMaster

/-! The handler `InstallRule` of the storage master with the requests that it sends: a rule goes
out once with every manager's address filled in, or not at all. -/

namespace ProgrammableCaching

/-- The rule without the addresses of its managers. -/
def Rule.forgetUris (r : Rule) : Rule := r.resolve fun _ => ""

theorem Action.resolve_resolve (addr addr' : String → String) (a : Action) :
    (a.resolve addr).resolve addr' = a.resolve addr' := by
  cases a <;> rfl

theorem Rule.forgetUris_resolve (addr : String → String) (r : Rule) :
    (r.resolve addr).forgetUris = r.forgetUris := by
  simp [Rule.forgetUris, Rule.resolve, Action.resolve_resolve]

theorem Action.managers_resolve (addr : String → String) (a : Action) :
    (a.resolve addr).managers = a.managers.map fun m => { m with uri := addr m.name } := by
  cases a <;> rfl

/-! ## Names that are not tracked -/

namespace PeerTracker

theorem getPeerFromName_of_untracked {t : PeerTracker} {name : String} (h : ¬ t.Tracked name) :
    t.getPeerFromName name = .error .outOfRange := by
  have hnone : t.nameToPeer.lookup name = none := Finmap.lookup_eq_none.mpr h
  simp [getPeerFromName, hnone]

/-- The address of a tracked name is the one of its peer. -/
theorem uriOf_of_tracked {t : PeerTracker} {name : String} (h : t.Tracked name) :
    ∃ p, t.nameToPeer.lookup name = some p ∧ t.uriOf name = p.rpcUri := by
  obtain ⟨p, hp⟩ := Finmap.mem_iff.mp h
  exact ⟨p, hp, by simp [uriOf, hp]⟩

end PeerTracker

namespace StorageMaster

theorem fillInAction_of_untracked {t : PeerTracker} (a : Action)
    (h : ¬ ∀ m ∈ a.managers, t.Tracked m.name) : fillInAction t a = .error .outOfRange := by
  cases a with
  | notSet => simp [Action.managers] at h
  | get a | remove a | put a =>
      have hmgr : ¬ t.Tracked a.mgr.name := by simpa [Action.managers] using h
      simp only [fillInAction, PeerTracker.getPeerFromName_of_untracked hmgr]
      rfl
  | copyFrom a =>
      by_cases hsrc : t.Tracked a.srcMgr.name
      · -- the source is looked up first, the destination fails
        have hdst : ¬ t.Tracked a.dstMgr.name := by simpa [Action.managers, hsrc] using h
        obtain ⟨p, hp, -⟩ := PeerTracker.getPeerFromName_of_tracked hsrc
        simp only [fillInAction, hp, PeerTracker.getPeerFromName_of_untracked hdst]
        rfl
      · simp only [fillInAction, PeerTracker.getPeerFromName_of_untracked hsrc]
        rfl

/-- The loop throws at the first action with an unknown manager, after it has filled in those
before. -/
theorem mapM_fillInAction_of_untracked {t : PeerTracker} {actions : List Action}
    (h : ¬ ∀ a ∈ actions, ∀ m ∈ a.managers, t.Tracked m.name) :
    actions.mapM (fillInAction t) = .error .outOfRange := by
  induction actions with
  | nil => simp at h
  | cons a rest ih =>
      rw [List.mapM_cons]
      by_cases ha : ∀ m ∈ a.managers, t.Tracked m.name
      · have hrest : ¬ ∀ b ∈ rest, ∀ m ∈ b.managers, t.Tracked m.name :=
          fun hall => h (List.forall_mem_cons.mpr ⟨ha, hall⟩)
        rw [fillInAction_of_tracked a ha, ih hrest]
        rfl
      · rw [fillInAction_of_untracked a ha]
        rfl

theorem fillInRule_of_untracked {t : PeerTracker} {r : Rule}
    (h : ¬ ∀ name ∈ r.managerNames, t.Tracked name) : fillInRule t r = .error .outOfRange := by
  have hactions : ¬ ∀ a ∈ r.action, ∀ m ∈ a.managers, t.Tracked m.name := by
    intro hall
    refine h fun name hname => ?_
    obtain ⟨a, ha, hname⟩ := List.mem_flatMap.mp hname
    obtain ⟨m, hm, rfl⟩ := List.mem_map.mp hname
    exact hall a ha m hm
  simp only [fillInRule, mapM_fillInAction_of_untracked hactions]
  rfl

/-- The tracker knows the client and every manager of the request. -/
def Resolves (m : StorageMaster) (request : InstallRuleRequest) : Prop :=
  m.peerTracker.Tracked request.client ∧
    ∀ name ∈ request.rule.managerNames, m.peerTracker.Tracked name

instance (m : StorageMaster) (request : InstallRuleRequest) : Decidable (m.Resolves request) :=
  inferInstanceAs (Decidable (_ ∧ _))

theorem installRule_of_not_resolves {m : StorageMaster} {request : InstallRuleRequest}
    (h : ¬ m.Resolves request) : m.installRule request = .error .outOfRange := by
  by_cases hclient : m.peerTracker.Tracked request.client
  · have hrule : ¬ ∀ name ∈ request.rule.managerNames, m.peerTracker.Tracked name :=
      fun hall => h ⟨hclient, hall⟩
    obtain ⟨p, hp, -⟩ := PeerTracker.getPeerFromName_of_tracked hclient
    simp only [installRule, hp, fillInRule_of_untracked hrule]
    rfl
  · simp only [installRule, PeerTracker.getPeerFromName_of_untracked hclient]
    rfl

end StorageMaster

/-! ## The handler with what it sends -/

/-- The master, and the rule requests that its stubs have sent to clients, each with the address
it went to. -/
structure MasterService where
  master : StorageMaster := {}
  sent : List (String × InstallRuleRequest) := []

/-- A handler of the master. What it has sent or written stays when it throws. -/
abbrev MasterHandler : Type → Type := ExceptT Failure (StateM MasterService)

namespace MasterService

def getPeerFromName (name : String) : MasterHandler Peer := do
  lift ((← get).master.peerTracker.getPeerFromName name)

/-- `FillInRule` on the copy of the request, which is lost when it throws. -/
def fillInRule (rule : Rule) : MasterHandler Rule := do
  lift (StorageMaster.fillInRule (← get).master.peerTracker rule)

/-- `StorageClientInterface::InstallRule` of the stub for `uri`. -/
def sendRule (answer : String → InstallRuleRequest → Status) (uri : String)
    (request : InstallRuleRequest) : MasterHandler Status := do
  modify fun s => { s with sent := s.sent ++ [(uri, request)] }
  return answer uri request

/-- `answer` is what the call to a client comes back with. -/
def installRule (answer : String → InstallRuleRequest → Status) (request : InstallRuleRequest) :
    MasterHandler Status := do
  let p ← getPeerFromName request.client
  let rule ← fillInRule request.rule
  sendRule answer p.rpcUri { request with rule }

/-- A lookup leaves the service as it is, whether it throws or not. -/
theorem getPeerFromName_run (name : String) (s : MasterService) :
    (getPeerFromName name).run.run s = (s.master.peerTracker.getPeerFromName name, s) := by
  change (lift (s.master.peerTracker.getPeerFromName name) : MasterHandler Peer).run.run s = _
  cases s.master.peerTracker.getPeerFromName name <;> rfl

theorem fillInRule_run (rule : Rule) (s : MasterService) :
    (fillInRule rule).run.run s = (StorageMaster.fillInRule s.master.peerTracker rule, s) := by
  change (lift (StorageMaster.fillInRule s.master.peerTracker rule) : MasterHandler Rule).run.run s
    = _
  cases StorageMaster.fillInRule s.master.peerTracker rule <;> rfl

/-- The handler sends what `StorageMaster.installRule` computes. -/
theorem installRule_run (answer : String → InstallRuleRequest → Status)
    (request : InstallRuleRequest) (s : MasterService) :
    (installRule answer request).run.run s = match s.master.installRule request with
      | .ok (uri, newRequest) =>
          (.ok (answer uri newRequest), { s with sent := s.sent ++ [(uri, newRequest)] })
      | .error e => (.error e, s) := by
  simp only [installRule, KeptWrites.run_bind, getPeerFromName_run]
  cases hpeer : s.master.peerTracker.getPeerFromName request.client with
  | error e =>
      simp only [StorageMaster.installRule, hpeer]
      rfl
  | ok p =>
      simp only [fillInRule_run]
      cases hrule : StorageMaster.fillInRule s.master.peerTracker request.rule <;>
        simp only [StorageMaster.installRule, hpeer, hrule] <;> rfl

/-- **Every manager or nothing.** When the client and every manager of the rule are tracked, one
request goes out, to the client: the rule as it came but for the addresses, which are those of
the tracker. Otherwise the call throws and nothing goes out. The master stays as it is. -/
theorem installRule_all_or_nothing (answer : String → InstallRuleRequest → Status)
    (request : InstallRuleRequest) (s : MasterService) :
    (s.master.Resolves request → ∃ client rule,
      s.master.peerTracker.nameToPeer.lookup request.client = some client ∧
        rule.forgetUris = request.rule.forgetUris ∧
        (∀ a ∈ rule.action, ∀ m ∈ a.managers, ∃ peer,
          s.master.peerTracker.nameToPeer.lookup m.name = some peer ∧ m.uri = peer.rpcUri) ∧
        (installRule answer request).run.run s =
          (.ok (answer client.rpcUri ⟨request.client, rule⟩),
            ⟨s.master, s.sent ++ [(client.rpcUri, ⟨request.client, rule⟩)]⟩)) ∧
      (¬ s.master.Resolves request →
        (installRule answer request).run.run s = (.error .outOfRange, s)) := by
  constructor
  · rintro ⟨hclient, hnames⟩
    obtain ⟨client, hlookup, huri⟩ := PeerTracker.uriOf_of_tracked hclient
    refine ⟨client, request.rule.resolve s.master.peerTracker.uriOf, hlookup,
      Rule.forgetUris_resolve _ _, ?_, ?_⟩
    · intro a ha m hm
      obtain ⟨b, hb, rfl⟩ := List.mem_map.mp ha
      rw [Action.managers_resolve] at hm
      obtain ⟨m', hm', rfl⟩ := List.mem_map.mp hm
      exact PeerTracker.uriOf_of_tracked
        (hnames m'.name (List.mem_flatMap.mpr ⟨b, hb, List.mem_map.mpr ⟨m', hm', rfl⟩⟩))
    · rw [installRule_run, StorageMaster.installRule_of_tracked hclient hnames, huri]
  · intro h
    rw [installRule_run, StorageMaster.installRule_of_not_resolves h]

/-- A client and two managers. -/
def threePeers : MasterService where
  master := { peerTracker := ((({} : PeerTracker).addPeer "client:c" "c:9" "ipv4:1").addPeer
    "m" "m:1" "ipv4:2").addPeer "n" "n:1" "ipv4:3" }

/-- Reads from `m` and then copies to `last`; the addresses are made up. -/
def readAndCopy (last : String) : InstallRuleRequest where
  client := "client:c"
  rule := { key := "k", action := [.get ⟨"k", ⟨"m", "old:1"⟩⟩, .notSet,
    .copyFrom ⟨"k", ⟨"m", ""⟩, ⟨last, "old:2"⟩⟩] }

theorem installRule_all_or_nothing_threePeers :
    (∃ client rule,
      threePeers.master.peerTracker.nameToPeer.lookup "client:c" = some client ∧
        rule.forgetUris = (readAndCopy "n").rule.forgetUris ∧
        (∀ a ∈ rule.action, ∀ m ∈ a.managers, ∃ peer,
          threePeers.master.peerTracker.nameToPeer.lookup m.name = some peer ∧
            m.uri = peer.rpcUri) ∧
        (installRule (fun _ _ => .ok) (readAndCopy "n")).run.run threePeers =
          (.ok .ok, ⟨threePeers.master, [] ++ [(client.rpcUri, ⟨"client:c", rule⟩)]⟩)) ∧
      (installRule (fun _ _ => .ok) (readAndCopy "gone")).run.run threePeers =
        (.error .outOfRange, threePeers) :=
  ⟨(installRule_all_or_nothing _ (readAndCopy "n") threePeers).1 (by decide),
    (installRule_all_or_nothing _ (readAndCopy "gone") threePeers).2 (by decide)⟩

end MasterService

end ProgrammableCaching
