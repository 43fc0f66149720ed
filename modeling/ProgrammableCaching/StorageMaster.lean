import ProgrammableCaching.Library.UnorderedMap
import ProgrammableCaching.Handler
import ProgrammableCaching.Proto

/-! `storage_master/storage_master.cc`: the peer table, the view of which
manager holds which key, and the RPC handlers of the storage master. -/

namespace ProgrammableCaching

open UnorderedMap

/-! ## PeerTracker -/

structure Peer where
  name : String
  rpcUri : String
  connectionUri : String
  deriving DecidableEq, Repr

structure PeerTracker where
  nameToPeer : UMap String Peer := ∅
  connectionToPeer : UMap String Peer := ∅

namespace PeerTracker

def getPeerFromName (t : PeerTracker) (name : String) : Except Failure Peer :=
  match t.nameToPeer.lookup name with
  | some p => .ok p
  | none => .error .outOfRange

def getPeerFromConnection (t : PeerTracker) (conn : String) : Except Failure Peer :=
  match t.connectionToPeer.lookup conn with
  | some p => .ok p
  | none => .error .outOfRange

def addPeer (t : PeerTracker) (name rpcUri connectionUri : String) : PeerTracker :=
  let p : Peer := ⟨name, rpcUri, connectionUri⟩
  { nameToPeer := t.nameToPeer.insert name p
    connectionToPeer := t.connectionToPeer.insert connectionUri p }

/-- Sets the uri of every view of the reply. -/
def populateViewReply (t : PeerTracker) (reply : GetViewReply) : Except Failure GetViewReply := do
  let view ← reply.view.mapM fun v => do
    let p ← t.getPeerFromName v.name
    return { v with uri := p.rpcUri }
  return { reply with view }

end PeerTracker

/-! ## StorageFileView -/

/-- The keys of the map are the files; its values are never read. -/
structure ManagerFileView where
  fileKeys : UMap String Int := ∅

namespace ManagerFileView

def addFile (v : ManagerFileView) (fileKey : String) : ManagerFileView :=
  ⟨v.fileKeys.insert fileKey 0⟩

def removeFile (v : ManagerFileView) (fileKey : String) : ManagerFileView :=
  ⟨v.fileKeys.erase fileKey⟩

end ManagerFileView

structure StorageFileView where
  managerViews : UMap String ManagerFileView := ∅

/-- The orders in which the hash tables of a view are traversed: the managers,
and the files of each. -/
structure ViewOrder where
  managers : List String
  files : String → List String

namespace StorageFileView

def addManager (v : StorageFileView) (managerName : String) : StorageFileView :=
  ⟨v.managerViews.insert managerName {}⟩

def addFileToManager (v : StorageFileView) (managerName fileKey : String) : StorageFileView :=
  ⟨modify v.managerViews managerName {} (·.addFile fileKey)⟩

/-- Also creates the manager's entry when there is none. -/
def removeFileFromManager (v : StorageFileView) (managerName fileKey : String) :
    StorageFileView :=
  ⟨modify v.managerViews managerName {} (·.removeFile fileKey)⟩

def populateViewReply (v : StorageFileView) (o : ViewOrder) (reply : GetViewReply) :
    GetViewReply :=
  { reply with
    view := reply.view ++ (traverse o.managers v.managerViews).map fun (name, view) =>
      { name, key := (traverse (o.files name) view.fileKeys).map Prod.fst } }

/-- The view lists `key` at the manager called `name`. -/
def Lists (v : StorageFileView) (name key : String) : Prop :=
  key ∈ (entry v.managerViews name {}).fileKeys

instance (v : StorageFileView) (name key : String) : Decidable (v.Lists name key) :=
  inferInstanceAs (Decidable (_ ∈ _))

section

variable (v : StorageFileView) (name key name' key' : String)

@[simp] theorem lists_addManager :
    (v.addManager name).Lists name' key' ↔ name' ≠ name ∧ v.Lists name' key' := by
  by_cases h : name' = name
  · subst h
    simpa [Lists, addManager, entry] using Finmap.notMem_empty
  · simp [Lists, addManager, entry, h]

@[simp] theorem lists_addFileToManager : (v.addFileToManager name key).Lists name' key' ↔
    (name' = name ∧ key' = key) ∨ v.Lists name' key' := by
  by_cases h : name' = name
  · subst h
    simp [Lists, addFileToManager, entry, ManagerFileView.addFile]
  · simp [Lists, addFileToManager, entry, h]

@[simp] theorem lists_removeFileFromManager : (v.removeFileFromManager name key).Lists name' key' ↔
    ¬ (name' = name ∧ key' = key) ∧ v.Lists name' key' := by
  by_cases h : name' = name
  · subst h
    simp [Lists, removeFileFromManager, entry, ManagerFileView.removeFile]
  · simp [Lists, removeFileFromManager, entry, h]

@[simp] theorem mem_addManager :
    name' ∈ (v.addManager name).managerViews ↔ name' = name ∨ name' ∈ v.managerViews := by
  simp [addManager]

@[simp] theorem mem_addFileToManager :
    name' ∈ (v.addFileToManager name key).managerViews ↔ name' = name ∨ name' ∈ v.managerViews := by
  simp [addFileToManager]

@[simp] theorem mem_removeFileFromManager :
    name' ∈ (v.removeFileFromManager name key).managerViews ↔
      name' = name ∨ name' ∈ v.managerViews := by
  simp [removeFileFromManager]

end

/-- `o` is an order in which the tables of `v` may be traversed. -/
def TraversedBy (v : StorageFileView) (o : ViewOrder) : Prop :=
  Enumerates o.managers v.managerViews ∧
    ∀ name view, v.managerViews.lookup name = some view →
      Enumerates (o.files name) view.fileKeys

theorem traversedBy_iff {v : StorageFileView} {o : ViewOrder} :
    v.TraversedBy o ↔ Enumerates o.managers v.managerViews ∧
      ∀ name ∈ o.managers, ((v.managerViews.lookup name).all fun view =>
        decide (Enumerates (o.files name) view.fileKeys)) := by
  simp only [TraversedBy, Option.all_eq_true, decide_eq_true_eq]
  constructor
  · exact fun h => ⟨h.1, fun name _ view hview => h.2 name view hview⟩
  · exact fun h => ⟨h.1, fun name view hview =>
      h.2 name ((h.1.2 name).mpr (mem_of_lookup hview)) view hview⟩

instance (v : StorageFileView) (o : ViewOrder) : Decidable (v.TraversedBy o) :=
  decidable_of_iff _ traversedBy_iff.symm

end StorageFileView

/-! ## The service -/

structure StorageMaster where
  fileView : StorageFileView := {}
  peerTracker : PeerTracker := {}

namespace StorageMaster

def generateName : IntroduceRequest → String
  | .storageManager introduce =>
      "manager:" ++ introduce.storageName.name ++ ":" ++ introduce.storageType.name ++ ":" ++
        introduce.rpcHostname
  | .storageClient introduce => "client:" ++ introduce.rpcHostname
  | .notSet => "INVALID"

/-- The address a manager or a client introduces itself with. -/
def rpcUri (hostname port : String) : String := hostname ++ ":" ++ port

/-- `peer` is the address the connection comes from. -/
def introduce (m : StorageMaster) (peer : String) (request : IntroduceRequest) :
    Status × IntroduceReply × StorageMaster :=
  let name := generateName request
  match request with
  | .storageManager introduce =>
      let uri := rpcUri introduce.rpcHostname introduce.rpcPort
      let fileView := introduce.file.foldl (fun v key => v.addFileToManager name key)
        (m.fileView.addManager name)
      (.ok, { name }, { fileView, peerTracker := m.peerTracker.addPeer name uri peer })
  | .storageClient introduce =>
      let uri := rpcUri introduce.rpcHostname introduce.rpcPort
      (.ok, { name }, { m with peerTracker := m.peerTracker.addPeer name uri peer })
  | .notSet => (.ok, { name }, m)

def fillInAction (t : PeerTracker) : Action → Except Failure Action
  | .get a => do
      let p ← t.getPeerFromName a.mgr.name
      return .get { a with mgr := { a.mgr with uri := p.rpcUri } }
  | .copyFrom a => do
      let p ← t.getPeerFromName a.srcMgr.name
      let q ← t.getPeerFromName a.dstMgr.name
      return .copyFrom { a with
        srcMgr := { a.srcMgr with uri := p.rpcUri }
        dstMgr := { a.dstMgr with uri := q.rpcUri } }
  | .remove a => do
      let p ← t.getPeerFromName a.mgr.name
      return .remove { a with mgr := { a.mgr with uri := p.rpcUri } }
  | .put a => do
      let p ← t.getPeerFromName a.mgr.name
      return .put { a with mgr := { a.mgr with uri := p.rpcUri } }
  | .notSet => return .notSet

def fillInRule (t : PeerTracker) (rule : Rule) : Except Failure Rule := do
  let action ← rule.action.mapM (fillInAction t)
  return { rule with action }

/-- The address of the client and the request that is sent to it. -/
def installRule (m : StorageMaster) (request : InstallRuleRequest) :
    Except Failure (String × InstallRuleRequest) := do
  let p ← m.peerTracker.getPeerFromName request.client
  let rule ← fillInRule m.peerTracker request.rule
  return (p.rpcUri, { request with rule })

def changeView (v : StorageFileView) : Action → StorageFileView
  | .copyFrom a =>
      (v.addFileToManager a.srcMgr.name a.key).removeFileFromManager a.dstMgr.name a.key
  | .remove a => v.removeFileFromManager a.mgr.name a.key
  | .put a => v.addFileToManager a.mgr.name a.key
  | .get _ | .notSet => v

def storageChange (m : StorageMaster) (request : StorageChangeRequest) : Status × StorageMaster :=
  (.ok, { m with fileView := request.storageChange.foldl changeView m.fileView })

def getView (m : StorageMaster) (o : ViewOrder) : Except Failure (Status × GetViewReply) := do
  let reply ← m.peerTracker.populateViewReply (m.fileView.populateViewReply o {})
  return (.ok, reply)

/-! ## Resolving names -/

end StorageMaster

/-- The manager references of an action. -/
def Action.managers : Action → List Manager
  | .get a => [a.mgr]
  | .copyFrom a => [a.srcMgr, a.dstMgr]
  | .remove a => [a.mgr]
  | .put a => [a.mgr]
  | .notSet => []

/-- The action with the uri of every manager looked up by its name. -/
def Action.resolve (addr : String → String) : Action → Action
  | .get a => .get { a with mgr := { a.mgr with uri := addr a.mgr.name } }
  | .copyFrom a => .copyFrom { a with
      srcMgr := { a.srcMgr with uri := addr a.srcMgr.name }
      dstMgr := { a.dstMgr with uri := addr a.dstMgr.name } }
  | .remove a => .remove { a with mgr := { a.mgr with uri := addr a.mgr.name } }
  | .put a => .put { a with mgr := { a.mgr with uri := addr a.mgr.name } }
  | .notSet => .notSet

def Rule.resolve (addr : String → String) (r : Rule) : Rule :=
  { r with action := r.action.map (·.resolve addr) }

/-- The manager names a rule mentions. -/
def Rule.managerNames (r : Rule) : List String :=
  r.action.flatMap fun a => a.managers.map Manager.name

namespace PeerTracker

def Tracked (t : PeerTracker) (name : String) : Prop := name ∈ t.nameToPeer

instance (t : PeerTracker) (name : String) : Decidable (t.Tracked name) :=
  inferInstanceAs (Decidable (_ ∈ _))

/-- The current address of a name; empty for an unknown one. -/
def uriOf (t : PeerTracker) (name : String) : String :=
  ((t.nameToPeer.lookup name).map Peer.rpcUri).getD ""

theorem getPeerFromName_of_tracked {t : PeerTracker} {name : String} (h : t.Tracked name) :
    ∃ p, t.getPeerFromName name = .ok p ∧ p.rpcUri = t.uriOf name := by
  obtain ⟨p, hp⟩ := Finmap.mem_iff.mp h
  exact ⟨p, by simp [getPeerFromName, hp], by simp [uriOf, hp]⟩

end PeerTracker

namespace StorageMaster

theorem fillInAction_of_tracked {t : PeerTracker} (a : Action)
    (h : ∀ m ∈ a.managers, t.Tracked m.name) :
    fillInAction t a = .ok (a.resolve t.uriOf) := by
  cases a with
  | notSet => rfl
  | get a =>
      obtain ⟨p, hp, hu⟩ :=
        PeerTracker.getPeerFromName_of_tracked (h a.mgr (by simp [Action.managers]))
      simp only [fillInAction, hp, Action.resolve, ← hu]
      rfl
  | remove a =>
      obtain ⟨p, hp, hu⟩ :=
        PeerTracker.getPeerFromName_of_tracked (h a.mgr (by simp [Action.managers]))
      simp only [fillInAction, hp, Action.resolve, ← hu]
      rfl
  | put a =>
      obtain ⟨p, hp, hu⟩ :=
        PeerTracker.getPeerFromName_of_tracked (h a.mgr (by simp [Action.managers]))
      simp only [fillInAction, hp, Action.resolve, ← hu]
      rfl
  | copyFrom a =>
      obtain ⟨p, hp, hu⟩ :=
        PeerTracker.getPeerFromName_of_tracked (h a.srcMgr (by simp [Action.managers]))
      obtain ⟨q, hq, hv⟩ :=
        PeerTracker.getPeerFromName_of_tracked (h a.dstMgr (by simp [Action.managers]))
      simp only [fillInAction, hp, hq, Action.resolve, ← hu, ← hv]
      rfl

/-- Filling in a rule whose managers are all tracked resolves every name. -/
theorem fillInRule_of_tracked {t : PeerTracker} {r : Rule}
    (h : ∀ name ∈ r.managerNames, t.Tracked name) : fillInRule t r = .ok (r.resolve t.uriOf) := by
  have hmap : ∀ actions : List Action,
      (∀ a ∈ actions, ∀ m ∈ a.managers, t.Tracked m.name) →
        actions.mapM (fillInAction t) = .ok (actions.map (·.resolve t.uriOf)) := by
    intro actions
    induction actions with
    | nil => intro _; rfl
    | cons a rest ih =>
        intro ha
        rw [List.mapM_cons, fillInAction_of_tracked a (ha a (by simp)),
          ih fun b hb => ha b (by simp [hb])]
        rfl
  have hall : ∀ a ∈ r.action, ∀ m ∈ a.managers, t.Tracked m.name := by
    intro a ha m hm
    exact h m.name (List.mem_flatMap.mpr ⟨a, ha, List.mem_map.mpr ⟨m, hm, rfl⟩⟩)
  simp only [fillInRule, hmap r.action hall]
  rfl

theorem installRule_of_tracked {m : StorageMaster} {request : InstallRuleRequest}
    (hclient : m.peerTracker.Tracked request.client)
    (h : ∀ name ∈ request.rule.managerNames, m.peerTracker.Tracked name) :
    m.installRule request = .ok (m.peerTracker.uriOf request.client,
      { request with rule := request.rule.resolve m.peerTracker.uriOf }) := by
  obtain ⟨p, hp, hu⟩ := PeerTracker.getPeerFromName_of_tracked hclient
  simp only [installRule, hp, fillInRule_of_tracked h, ← hu]
  rfl

end StorageMaster

end ProgrammableCaching
