import ProgrammableCaching.Library.KeptWrites
import ProgrammableCaching.Library.UnorderedMap
import ProgrammableCaching.Handler
import ProgrammableCaching.Proto

/-! `scheduler/serverless_system_view.cc` and `scheduler/scheduler_common.h`: what
the scheduler knows about execution engines, clients and managers. -/

namespace ProgrammableCaching

open UnorderedMap KeptWrites

/-! ## Names and addresses -/

/-- The part of a uri before the first `:`. -/
def uriToHostname (uri : String) : Except Failure String :=
  if ':' ∈ uri.toList then .ok (String.ofList (uri.toList.takeWhile (· ≠ ':')))
  else .error .badIterator

/-- The part of a name between the first two `:`. Without any `:` the offset
`npos + 1` is zero and the whole name is searched for the second one. -/
def nameToStorageName (name : String) : Except Failure String :=
  let sliced :=
    if ':' ∈ name.toList then (name.toList.dropWhile (· ≠ ':')).tail else name.toList
  if ':' ∈ sliced then .ok (String.ofList (sliced.takeWhile (· ≠ ':')))
  else .error .badIterator

/-! ## scheduler_common.h -/

structure Decision where
  engine : String := ""
  task : Task := {}
  rules : List Rule := []
  deriving DecidableEq, Repr

/-- `SchedulingDecisions`. -/
abbrev SchedulingDecisions := List Decision

/-- The two counters are `int`s; a 32-bit overflow of them is not modelled. -/
structure EngineState where
  name : String := ""
  clientName : String := ""
  ephemeralName : String := ""
  runningTasks : Int := 0
  maximumTasks : Int := -1
  deriving DecidableEq, Repr

def EngineState.availableToSchedule (s : EngineState) : Bool :=
  s.runningTasks < s.maximumTasks && s.name ≠ "" && s.clientName ≠ "" && s.ephemeralName ≠ ""

/-! ## The view -/

structure ServerlessSystemView where
  ephemeral : StorageName
  persistant : StorageName
  clientUriToEngine : UMap String String := ∅
  engineToState : UMap String EngineState := ∅
  hostnameToEngine : UMap String String := ∅
  mgrToKeys : UMap String (List String) := ∅
  persistantKeyToMgr : UMap String String := ∅

namespace ServerlessSystemView

def addExecutionEngine (v : ServerlessSystemView) (execUri clientUri : String)
    (maximumTasks : Int) : Except Failure ServerlessSystemView := do
  let hostname ← uriToHostname execUri
  return { v with
    hostnameToEngine := v.hostnameToEngine.insert hostname execUri
    engineToState := v.engineToState.insert execUri { name := execUri, maximumTasks }
    clientUriToEngine := v.clientUriToEngine.insert clientUri execUri }

def getEngineState (v : ServerlessSystemView) (engineName : String) :
    Except Failure EngineState :=
  match v.engineToState.lookup engineName with
  | some s => .ok s
  | none => .error .outOfRange

def getEphemeralStorageView (v : ServerlessSystemView) (engineName : String) :
    Except Failure (List String) := do
  let s ← v.getEngineState engineName
  match v.mgrToKeys.lookup s.ephemeralName with
  | some keys => return keys
  | none => throw .outOfRange

/-- `hostname_to_engine[hostname]`: an unknown host gets the empty engine name. -/
def engineOfHost (v : ServerlessSystemView) (hostname : String) :
    String × ServerlessSystemView :=
  (entry v.hostnameToEngine hostname "",
    { v with hostnameToEngine := modify v.hostnameToEngine hostname "" id })

/-- `f(engine_to_state[engineName])`: an unknown engine gets a default state. -/
def modifyEngine (v : ServerlessSystemView) (engineName : String)
    (f : EngineState → EngineState) : ServerlessSystemView :=
  { v with engineToState := modify v.engineToState engineName {} f }

/-- The body of the loop of `ParseGetViewReply` over the managers. -/
def parseManagerView (v : ServerlessSystemView) (view : ManagerView) :
    Except Failure ServerlessSystemView := do
  let hostname ← uriToHostname view.uri
  let (engineName, v) := v.engineOfHost hostname
  let sName ← nameToStorageName view.name
  match StorageName.parse sName with
  | none => throw .assertion
  | some sName =>
      let v :=
        if sName = v.ephemeral then
          v.modifyEngine engineName fun state => { state with ephemeralName := view.name }
        else
          { v with persistantKeyToMgr :=
              view.key.foldl (fun m key => m.insert key view.name) v.persistantKeyToMgr }
      return { v with mgrToKeys := v.mgrToKeys.insert view.name view.key }

/-- The body of the loop of `ParseGetViewReply` over the clients. -/
def parseClientView (v : ServerlessSystemView) (client : ClientView) :
    Except Failure ServerlessSystemView := do
  let hostname ← uriToHostname client.uri
  let (engineName, v) := v.engineOfHost hostname
  return v.modifyEngine engineName fun state => { state with clientName := client.name }

def parseGetViewReply (v : ServerlessSystemView) (masterView : GetViewReply) :
    Except Failure ServerlessSystemView := do
  let v ← masterView.view.foldlM parseManagerView v
  masterView.client.foldlM parseClientView v

def tasksScheduled (v : ServerlessSystemView) (decisions : SchedulingDecisions) :
    ServerlessSystemView :=
  decisions.foldl (fun v decision => v.modifyEngine decision.engine fun e =>
    { e with runningTasks := e.runningTasks + 1 }) v

/-- `order` is the order in which the table of engines is traversed. -/
def getSchedulableEngines (v : ServerlessSystemView) (order : List String) : List String :=
  ((traverse order v.engineToState).filter fun (_, state) => state.availableToSchedule).map
    Prod.fst

def getPersistentMgrForFile (v : ServerlessSystemView) (fileName : String) :
    Except Failure String :=
  match v.persistantKeyToMgr.lookup fileName with
  | some mgr => .ok mgr
  | none => .error .outOfRange

/-- The manager of the first key found, whatever the file is; `order` is the order in which the
table of keys is traversed. -/
def getPersistentMgrForPut (v : ServerlessSystemView) (order : List String)
    (_fileName : String) : Except Failure String :=
  match order.head? with
  | some first => v.getPersistentMgrForFile first
  | none => .error .badIterator

theorem mem_getSchedulableEngines {v : ServerlessSystemView} {order : List String}
    (h : Enumerates order v.engineToState) (engine : String) :
    engine ∈ v.getSchedulableEngines order ↔
      ∃ state, v.engineToState.lookup engine = some state ∧ state.availableToSchedule := by
  simp only [getSchedulableEngines, List.mem_map, List.mem_filter, Prod.exists,
    mem_traverse h]
  constructor
  · rintro ⟨_, state, hs, rfl⟩
    exact ⟨state, hs⟩
  · rintro ⟨state, hs⟩
    exact ⟨engine, state, hs, rfl⟩

/-! ## What the handlers do to the engines -/

theorem addExecutionEngine_engines {v v' : ServerlessSystemView} {execUri clientUri : String}
    {maximumTasks : Int} (hok : v.addExecutionEngine execUri clientUri maximumTasks = .ok v') :
    ':' ∈ execUri.toList ∧
      v'.engineToState = v.engineToState.insert execUri { name := execUri, maximumTasks } := by
  unfold addExecutionEngine uriToHostname at hok
  split at hok
  · rename_i hcolon
    cases hok
    exact ⟨hcolon, rfl⟩
  · cases hok

/-- A reply is parsed manager by manager and then client by client. -/
theorem parseGetViewReply_ok {v v' : ServerlessSystemView} {reply : GetViewReply} :
    v.parseGetViewReply reply = .ok v' ↔ ∃ v₁, reply.view.foldlM parseManagerView v = .ok v₁ ∧
      reply.client.foldlM parseClientView v₁ = .ok v' :=
  exceptBind_ok

/-! ## A reply that is parsed halfway

`ParseGetViewReply` writes to the tables as it goes. When it throws, what it has written stays. -/

/-- Code over the view of the system. -/
abbrev ViewCode : Type → Type := Code Failure ServerlessSystemView

/-- The body of the loop over the managers. -/
def parseManagerViewInPlace (view : ManagerView) : ViewCode Unit := do
  let hostname ← lift (uriToHostname view.uri)
  let engineName ← modifyGet fun v => v.engineOfHost hostname
  let sName ← lift (nameToStorageName view.name)
  match StorageName.parse sName with
  | none => throw .assertion
  | some sName =>
      modify fun v =>
        if sName = v.ephemeral then
          v.modifyEngine engineName fun state => { state with ephemeralName := view.name }
        else
          { v with persistantKeyToMgr :=
              view.key.foldl (fun m key => m.insert key view.name) v.persistantKeyToMgr }
      modify fun v => { v with mgrToKeys := v.mgrToKeys.insert view.name view.key }

/-- The body of the loop over the clients. -/
def parseClientViewInPlace (client : ClientView) : ViewCode Unit := do
  let hostname ← lift (uriToHostname client.uri)
  let engineName ← modifyGet fun v => v.engineOfHost hostname
  modify fun v => v.modifyEngine engineName fun state => { state with clientName := client.name }

/-- `ParseGetViewReply` with what it leaves behind when it throws. -/
def parseGetViewReplyInPlace (masterView : GetViewReply) : ViewCode Unit := do
  forM masterView.view parseManagerViewInPlace
  forM masterView.client parseClientViewInPlace

theorem commit_parseManagerView (view : ManagerView) :
    commit (parseManagerViewInPlace view) = fun v => v.parseManagerView view := by
  funext v
  unfold parseManagerView parseManagerViewInPlace
  cases huri : uriToHostname view.uri with
  | error e => rfl
  | ok hostname =>
      cases hname : nameToStorageName view.name with
      | error e => rfl
      | ok sName =>
          have hlift : ∀ {α : Type} (a : α), (lift (.ok a) : ViewCode α) = pure a := fun _ => rfl
          have hok : ∀ {α β : Type} (a : α) (f : α → Except Failure β),
              (Except.ok a >>= f) = f a := fun _ _ => rfl
          simp only [hlift, pure_bind, hok]
          cases StorageName.parse sName <;> rfl

theorem commit_parseClientView (client : ClientView) :
    commit (parseClientViewInPlace client) = fun v => v.parseClientView client := by
  funext v
  unfold parseClientView parseClientViewInPlace
  cases uriToHostname client.uri <;> rfl

/-- A reply is parsed without an exception to the same view. -/
theorem commit_parseGetViewReply (reply : GetViewReply) (v : ServerlessSystemView) :
    commit (parseGetViewReplyInPlace reply) v = v.parseGetViewReply reply := by
  rw [parseGetViewReplyInPlace, commit_bind, commit_forM]
  simp only [commit_parseManagerView]
  refine congrArg (reply.view.foldlM parseManagerView v >>= ·) (funext fun v₁ => ?_)
  rw [commit_forM]
  simp only [commit_parseClientView]

/-- Parsing a reply only sets manager and client names of engines, how far it may get. -/
theorem preserves_parseGetViewReply {I : UMap String EngineState → Prop} {reply : GetViewReply}
    (hmanager : ∀ m engine name, I m →
      I (modify m engine {} fun state => { state with ephemeralName := name }))
    (hclient : ∀ client ∈ reply.client, ∀ m engine, I m →
      I (modify m engine {} fun state => { state with clientName := client.name })) :
    Preserves (fun v => I v.engineToState) (parseGetViewReplyInPlace reply) := by
  have hlift : ∀ {α : Type} (x : Except Failure α),
      Preserves (fun v => I v.engineToState) (lift x : ViewCode α) := by
    intro α x
    cases x with
    | ok a => exact preserves_pure a
    | error e => exact preserves_throw e
  have hhost : ∀ hostname, Preserves (fun v => I v.engineToState)
      (modifyGet fun v => v.engineOfHost hostname : ViewCode String) :=
    fun hostname => preserves_modifyGet fun _ h => h
  refine (preserves_forM fun view _ => ?_).bind fun _ => preserves_forM fun client hc => ?_
  · refine (hlift _).bind fun hostname => (hhost hostname).bind fun engine =>
      (hlift _).bind fun sName => ?_
    split
    · exact preserves_throw _
    · refine (preserves_modify fun v hv => ?_).bind fun _ => preserves_modify fun _ h => h
      split
      · exact hmanager _ engine _ hv
      · exact hv
  · refine (hlift _).bind fun hostname => (hhost hostname).bind fun engine => ?_
    exact preserves_modify fun v hv => hclient client hc _ engine hv

theorem parseGetViewReply_invariant {I : UMap String EngineState → Prop}
    {v v' : ServerlessSystemView} {reply : GetViewReply}
    (hmanager : ∀ m engine name, I m →
      I (modify m engine {} fun state => { state with ephemeralName := name }))
    (hclient : ∀ client ∈ reply.client, ∀ m engine, I m →
      I (modify m engine {} fun state => { state with clientName := client.name }))
    (h : I v.engineToState) (hok : v.parseGetViewReply reply = .ok v') : I v'.engineToState :=
  (preserves_parseGetViewReply hmanager hclient).commit h
    (by rwa [commit_parseGetViewReply])

/-- The name, the running tasks and the maximum of an engine. -/
def load (state : EngineState) : String × Int × Int :=
  (state.name, state.runningTasks, state.maximumTasks)

/-- The engines of `m` have kept their loads, and new ones have the default. -/
def SameLoad (m m' : UMap String EngineState) : Prop :=
  ∀ engine, (m'.lookup engine).map load = (m.lookup engine).map load ∨
    m.lookup engine = none ∧ (m'.lookup engine).map load = some (load {})

theorem SameLoad.modify {m m' : UMap String EngineState} (h : SameLoad m m') (engine : String)
    {f : EngineState → EngineState} (hf : ∀ state, load (f state) = load state) :
    SameLoad m (modify m' engine {} f) := by
  intro engine'
  rw [lookup_modify]
  split
  · rename_i heq
    subst heq
    rcases h engine' with hsame | ⟨hnone, hnew⟩
    · cases hm' : m'.lookup engine' with
      | none =>
          rw [hm', Option.map_none, eq_comm, Option.map_eq_none_iff] at hsame
          exact .inr ⟨hsame, by simp [hf, entry, hm']⟩
      | some state => exact .inl (by rw [← hsame, hm']; simp [hf, entry, hm'])
    · cases hm' : m'.lookup engine' with
      | none => simp [hm'] at hnew
      | some state => exact .inr ⟨hnone, by rw [← hnew, hm']; simp [hf, entry, hm']⟩
  · exact h engine'

theorem SameLoad.entry {m m' : UMap String EngineState} (h : SameLoad m m') (engine : String) :
    load (entry m' engine {}) = load (entry m engine {}) := by
  have hload : ∀ n : UMap String EngineState,
      load (UnorderedMap.entry n engine {}) = ((n.lookup engine).map load).getD (load {}) :=
    fun n => (Option.getD_map load {} (n.lookup engine)).symm
  rw [hload, hload]
  rcases h engine with hsame | ⟨hnone, hnew⟩
  · rw [hsame]
  · rw [hnone, hnew]
    rfl

/-- Parsing a reply leaves the load of every engine alone, however far it gets. -/
theorem preserves_sameLoad (m : UMap String EngineState) (reply : GetViewReply) :
    Preserves (fun v => SameLoad m v.engineToState) (parseGetViewReplyInPlace reply) :=
  preserves_parseGetViewReply (fun _ engine _ h => h.modify engine fun _ => rfl)
    fun _ _ _ engine h => h.modify engine fun _ => rfl

theorem parseGetViewReply_sameLoad {v v' : ServerlessSystemView} {reply : GetViewReply}
    (hok : v.parseGetViewReply reply = .ok v') : SameLoad v.engineToState v'.engineToState :=
  (preserves_sameLoad v.engineToState reply).commit (fun _ => .inl rfl)
    (by rwa [commit_parseGetViewReply])

/-- `TasksScheduled` adds the decisions for an engine to its running tasks. -/
theorem lookup_tasksScheduled (decisions : SchedulingDecisions) {v : ServerlessSystemView}
    (engine : String) :
    (v.tasksScheduled decisions).engineToState.lookup engine =
      if decisions.any (·.engine = engine) ∨ engine ∈ v.engineToState then
        some { entry v.engineToState engine {} with
          runningTasks := (entry v.engineToState engine {}).runningTasks +
            decisions.countP (·.engine = engine) }
      else none := by
  induction decisions generalizing v with
  | nil =>
      cases h : v.engineToState.lookup engine with
      | none => simp [tasksScheduled, h, Finmap.lookup_eq_none.mp h]
      | some state => simp [tasksScheduled, h, mem_of_lookup h, entry]
  | cons d decisions ih =>
      have hcons : v.tasksScheduled (d :: decisions) = (v.modifyEngine d.engine fun e =>
          { e with runningTasks := e.runningTasks + 1 }).tasksScheduled decisions := rfl
      rw [hcons, ih]
      by_cases hd : d.engine = engine
      · subst hd
        simp [modifyEngine, entry]
        omega
      · simp [modifyEngine, entry, hd, Ne.symm hd]

end ServerlessSystemView

end ProgrammableCaching
