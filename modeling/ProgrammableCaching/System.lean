import ProgrammableCaching.RuleExecution

/-! The whole storage service: the master, the running managers and the running
clients with their rules, and the operations that drive it. -/

namespace ProgrammableCaching

open UnorderedMap Replicas Handler

/-- The clients are kept by the uri they listen at. -/
structure System (σ : Type) where
  world : World σ := {}
  clients : UMap String RuleDb := ∅

namespace System

variable {σ : Type} [StorageInterface σ]

/-- `StorageManager::Start`: introduce the keys of the medium, then listen. -/
def startManager (s : System σ) (peer hostname port : String) (storage : σ) : System σ :=
  let (introduce, storage') := StorageManager.startRequest storage hostname port
  let (_, _, master) := s.world.master.introduce peer (.storageManager introduce)
  { s with world :=
    { managers := s.world.managers.insert (StorageMaster.rpcUri hostname port) storage', master } }

omit [StorageInterface σ] in
/-- The client at `uri` has the rules `d`. -/
def setRules (s : System σ) (uri : String) (d : RuleDb) : System σ :=
  { s with clients := s.clients.insert uri d }

omit [StorageInterface σ] in
@[simp] theorem setRules_world (s : System σ) (uri : String) (d : RuleDb) :
    (s.setRules uri d).world = s.world := rfl

omit [StorageInterface σ] in
@[simp] theorem lookup_setRules (s : System σ) (uri : String) (d : RuleDb) :
    (s.setRules uri d).clients.lookup uri = some d := Finmap.lookup_insert _

omit [StorageInterface σ] in
/-- `StorageClient::Start` of a client that has been made for it, whose rules are empty. -/
def startClient (s : System σ) (peer hostname port : String) : System σ :=
  let (_, _, master) := s.world.master.introduce peer
    (.storageClient { rpcHostname := hostname, rpcPort := port })
  { s with world := { s.world with master } }.setRules (StorageMaster.rpcUri hostname port) {}

omit [StorageInterface σ] in
/-- `StorageMaster::InstallRule` without anything in between: fill in the rule and pass it to the
client. -/
def installRule (request : InstallRuleRequest) : Handler (System σ) Status := fun s => do
  let (uri, newRequest) ← s.world.master.installRule request
  match s.clients.lookup uri with
  | some d =>
      let (status, d') := StorageClient.installRule d newRequest
      return (status, s.setRules uri d')
  | none => return (.unavailable, s)

omit [StorageInterface σ] in
/-- Installing a rule with tracked names at a listening client resolves the
names and changes nothing but the client's rules. -/
theorem installRule_of_tracked {s : System σ} {request : InstallRuleRequest} {d : RuleDb}
    (hclient : s.world.master.peerTracker.Tracked request.client)
    (hd : s.clients.lookup (s.world.master.peerTracker.uriOf request.client) = some d)
    (hnames : ∀ name ∈ request.rule.managerNames, s.world.master.peerTracker.Tracked name) :
    installRule request s = .ok (.ok, s.setRules (s.world.master.peerTracker.uriOf request.client)
      (d.addRule (request.rule.resolve s.world.master.peerTracker.uriOf))) := by
  simp only [installRule, StorageMaster.installRule_of_tracked hclient hnames]
  simp only [bind, Except.bind, hd]
  rfl

/-- A `Get` sent to the client at `client`. -/
def get (client : String) (request : GetRequest) : Handler (System σ) (Status × GetReply) :=
  fun s =>
    match s.clients.lookup client with
    | some d => do
        let (r, world) ← (StorageClient.get d request : Handler (World σ) _) s.world
        return (r, { s with world })
    | none => return ((.unavailable, {}), s)

/-- A `Put` sent to the client at `client`. -/
def put (client : String) (request : PutRequest) : Handler (System σ) Status := fun s =>
  match s.clients.lookup client with
  | some d => do
      let (r, world) ← (StorageClient.put d request : Handler (World σ) _) s.world
      return (r, { s with world })
  | none => return (.unavailable, s)

/-! ## A service with two managers and a client -/

/-- The managers of `World.TwoManagers`, started one after the other, and a
client. -/
def twoManagerService : System MapStorage :=
  let first := ({} : System MapStorage).startManager "p1" "n1" "1" { db := AList.singleton "k" "v" }
  (first.startManager "p2" "n2" "1" {}).startClient "p3" "c" "1"

end System

end ProgrammableCaching
