import ProgrammableCaching.Library.Runs
import ProgrammableCaching.MasterRuns
import ProgrammableCaching.Scheduler

/-! The storage master and the scheduler together. The control loop of the
scheduler asks the master for its view and never hands the reply to
`ParseGetViewReply`, so no engine is ever paired with a client. -/

namespace ProgrammableCaching

open UnorderedMap Runs

namespace ServerlessSystemView

/-- No engine knows its client. -/
def Unpaired (engines : UMap String EngineState) : Prop :=
  ∀ engine state, engines.lookup engine = some state → state.clientName = ""

theorem Unpaired.insert {engines : UMap String EngineState} (h : Unpaired engines)
    {engine : String} {state : EngineState} (hs : state.clientName = "") :
    Unpaired (engines.insert engine state) := by
  intro engine' state' hlookup
  rw [lookup_insert_ite] at hlookup
  split at hlookup
  · cases hlookup
    exact hs
  · exact h engine' state' hlookup

theorem Unpaired.entry {engines : UMap String EngineState} (h : Unpaired engines)
    (engine : String) : (entry engines engine {}).clientName = "" := by
  cases hlookup : engines.lookup engine with
  | none => simp [UnorderedMap.entry, hlookup]
  | some state => rw [entry_of_lookup _ hlookup]; exact h engine state hlookup

theorem Unpaired.not_schedulable {v : ServerlessSystemView} (h : Unpaired v.engineToState)
    {order : List String} (ho : Enumerates order v.engineToState) (engine : String) :
    engine ∉ v.getSchedulableEngines order := by
  rw [mem_getSchedulableEngines ho]
  rintro ⟨state, hlookup, havailable⟩
  simp [EngineState.availableToSchedule, h engine state hlookup] at havailable

theorem Unpaired.addExecutionEngine {v v' : ServerlessSystemView} (h : Unpaired v.engineToState)
    {execUri clientUri : String} {maximumTasks : Int}
    (hok : v.addExecutionEngine execUri clientUri maximumTasks = .ok v') :
    Unpaired v'.engineToState := by
  rw [(addExecutionEngine_engines hok).2]
  exact h.insert rfl

/-- A reply without clients pairs no engine. -/
theorem Unpaired.parseGetViewReply {v v' : ServerlessSystemView} (h : Unpaired v.engineToState)
    {reply : GetViewReply} (hclient : reply.client = [])
    (hok : v.parseGetViewReply reply = .ok v') : Unpaired v'.engineToState :=
  parseGetViewReply_invariant (I := Unpaired) (fun _ engine _ hm => hm.insert (hm.entry engine))
    (by simp [hclient]) h hok

end ServerlessSystemView

/-- The master never fills in the clients of its reply. -/
theorem StorageMaster.getView_client {m : StorageMaster} {o : ViewOrder} {status : Status}
    {reply : GetViewReply} (h : m.getView o = .ok (status, reply)) : reply.client = [] := by
  by_cases ht : ∀ p ∈ traverse o.managers m.fileView.managerViews, m.peerTracker.Tracked p.1
  · rw [StorageMaster.getView_of_tracked ht] at h
    cases h
    rfl
  · push Not at ht
    rw [StorageMaster.getView_error ht] at h
    cases h

/-! ## Runs of the master and the scheduler -/

structure Cluster where
  master : StorageMaster := {}
  scheduler : Scheduler := {}

inductive ClusterEvent
  | toMaster (request : MasterRequest)
  | introduceEngine (request : SchedulerIntroduceRequest)
  /-- The master answers with its tables in the order `o`. -/
  | controlPass (o : ViewOrder)

namespace Cluster

open ServerlessSystemView (Unpaired)

def exec (s : Cluster) : ClusterEvent → Except Failure Cluster
  | .toMaster request => return { s with master := s.master.handle request }
  | .introduceEngine request => do
      let (_, scheduler) ← s.scheduler.introduce request
      return { s with scheduler }
  | .controlPass o =>
      return { s with scheduler := s.scheduler.controlPass (s.master.getView o) }

def Step (s : Cluster) (e : ClusterEvent) (s' : Cluster) : Prop := s.exec e = .ok s'

theorem unpaired_step {s s' : Cluster} {e : ClusterEvent}
    (h : Unpaired s.scheduler.systemView.engineToState) (hstep : Step s e s') :
    Unpaired s'.scheduler.systemView.engineToState := by
  cases e with
  | toMaster request =>
      cases hstep
      exact h
  | introduceEngine request =>
      obtain ⟨r, hintroduce, hexec⟩ := exceptBind_ok.mp hstep
      obtain ⟨v, hadd, hv⟩ := exceptBind_ok.mp hintroduce
      cases hv
      cases hexec
      exact h.addExecutionEngine hadd
  | controlPass o =>
      cases hstep
      exact h

theorem unpaired_of_reaches {s : Cluster} {es : List ClusterEvent} (h : Reaches Step {} es s) :
    Unpaired s.scheduler.systemView.engineToState :=
  h.invariant (fun engine state hlookup => by simp at hlookup)
    fun _ _ _ hu hstep => unpaired_step hu hstep

/-- **No engine ever becomes schedulable.** After any run of introductions and
passes of the control loop, and one more pass, no engine is schedulable,
whichever managers and clients run on its host. -/
theorem never_schedulable {s s' : Cluster} {es : List ClusterEvent} {o : ViewOrder}
    (h : Reaches Step {} es s) (hpass : Step s (.controlPass o) s') {order : List String}
    (ho : Enumerates order s'.scheduler.systemView.engineToState) (engine : String) :
    engine ∉ s'.scheduler.systemView.getSchedulableEngines order :=
  (unpaired_of_reaches (h.snoc hpass)).not_schedulable ho engine

/-- Parsing the replies would not be enough, for they have no clients. -/
theorem parsed_not_schedulable {s : Cluster} {es : List ClusterEvent} {o : ViewOrder}
    {status : Status} {reply : GetViewReply} {v : ServerlessSystemView}
    (h : Reaches Step {} es s) (hview : s.master.getView o = .ok (status, reply))
    (hparse : s.scheduler.systemView.parseGetViewReply reply = .ok v) {order : List String}
    (ho : Enumerates order v.engineToState) (engine : String) :
    engine ∉ v.getSchedulableEngines order :=
  ((unpaired_of_reaches h).parseGetViewReply (StorageMaster.getView_client hview)
    hparse).not_schedulable ho engine

section Example

/-- An ephemeral manager, a client and an engine of host `h`. -/
def equippedRun : List ClusterEvent :=
  [.toMaster (.introduce "p1" (.storageManager { rpcHostname := "h", rpcPort := "1" })),
    .toMaster (.introduce "p2" (.storageClient { rpcHostname := "h", rpcPort := "2" })),
    .introduceEngine { rpcUri := "h:3", clientRpcUri := "h:2", maximumTasks := 1 }]

def equipped : Cluster where
  master := StorageMaster.run {}
    [.introduce "p1" (.storageManager { rpcHostname := "h", rpcPort := "1" }),
      .introduce "p2" (.storageClient { rpcHostname := "h", rpcPort := "2" })]
  scheduler := { systemView := {
    ephemeral := .ephemeral
    persistant := .fakePersistant
    clientUriToEngine := (∅ : UMap String String).insert "h:2" "h:3"
    engineToState :=
      (∅ : UMap String EngineState).insert "h:3" { name := "h:3", maximumTasks := 1 }
    hostnameToEngine := (∅ : UMap String String).insert "h" "h:3" } }

def equippedOrder : ViewOrder := ⟨["manager:EPHEMERAL:MANAGED:h"], fun _ => []⟩

theorem reaches_equipped : Reaches Step {} equippedRun equipped :=
  .cons rfl (.cons rfl (.cons rfl .nil))

/-- The engine is not schedulable after a pass of the control loop. -/
theorem equipped_not_schedulable :
    Reaches Step {} equippedRun equipped ∧
      equipped.master.fileView.TraversedBy equippedOrder ∧
      Step equipped (.controlPass equippedOrder) equipped ∧
      Enumerates ["h:3"] equipped.scheduler.systemView.engineToState ∧
      "h:3" ∉ equipped.scheduler.systemView.getSchedulableEngines ["h:3"] :=
  ⟨reaches_equipped, by decide, rfl, by decide, by decide⟩

theorem never_schedulable_equipped :
    "h:3" ∉ equipped.scheduler.systemView.getSchedulableEngines ["h:3"] :=
  never_schedulable (o := equippedOrder) reaches_equipped rfl (by decide) "h:3"

end Example

end Cluster

end ProgrammableCaching
