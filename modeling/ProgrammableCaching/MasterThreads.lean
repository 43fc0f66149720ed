import ProgrammableCaching.Library.Pools
import ProgrammableCaching.MasterRuns

/-! The handlers of the storage master as programs that hold one of its two locks
for one step at a time, so that the steps of several handlers can take turns. -/

namespace ProgrammableCaching

open UnorderedMap Pools

/-- What a handler writes while it holds `tracker_mutex` or `view_mutex`. -/
inductive TableUpdate
  | addPeer (name rpcUri connectionUri : String)
  | addManager (managerName : String)
  | addFileToManager (managerName fileKey : String)
  | removeFileFromManager (managerName fileKey : String)
  deriving DecidableEq, Repr

/-- What a handler does between one acquisition of a lock and its release. -/
inductive LockedStep : Type → Type
  | update (u : TableUpdate) : LockedStep Unit
  | populateFiles (reply : GetViewReply) : LockedStep GetViewReply
  | populateUris (reply : GetViewReply) : LockedStep GetViewReply

namespace TableUpdate

def onView (v : StorageFileView) : TableUpdate → StorageFileView
  | addPeer _ _ _ => v
  | addManager name => v.addManager name
  | addFileToManager name key => v.addFileToManager name key
  | removeFileFromManager name key => v.removeFileFromManager name key

def onTracker (t : PeerTracker) : TableUpdate → PeerTracker
  | addPeer name rpcUri connectionUri => t.addPeer name rpcUri connectionUri
  | addManager _ | addFileToManager _ _ | removeFileFromManager _ _ => t

def apply (m : StorageMaster) (u : TableUpdate) : StorageMaster :=
  { fileView := u.onView m.fileView, peerTracker := u.onTracker m.peerTracker }

/-- The manager whose entry of the view the update accesses. -/
def managerName : TableUpdate → Option String
  | addPeer _ _ _ => none
  | addManager name | addFileToManager name _ | removeFileFromManager name _ => some name

end TableUpdate

/-- The effect of a step, when the tables are traversed in the order `o`. -/
def LockedStep.handle (o : ViewOrder) {β : Type} : LockedStep β → Handler StorageMaster β
  | update u => fun m => .ok ((), u.apply m)
  | populateFiles reply => fun m => .ok (m.fileView.populateViewReply o reply, m)
  | populateUris reply => fun m => (m.peerTracker.populateViewReply reply).map fun r => (r, m)

/-- A handler of the storage master, or what is left of one. -/
abbrev MasterThread := Prog LockedStep Failure

namespace MasterThread

def update (u : TableUpdate) : MasterThread Unit := .perform (.update u)

/-- `peer` is the address the connection comes from. -/
def introduce (peer : String) (request : IntroduceRequest) :
    MasterThread (Status × IntroduceReply) := do
  let name := StorageMaster.generateName request
  match request with
  | .storageManager introduce =>
      update (.addPeer name (StorageMaster.rpcUri introduce.rpcHostname introduce.rpcPort) peer)
      update (.addManager name)
      forM introduce.file fun key => update (.addFileToManager name key)
  | .storageClient introduce =>
      update (.addPeer name (StorageMaster.rpcUri introduce.rpcHostname introduce.rpcPort) peer)
  | .notSet => pure ()
  return (.ok, { name })

def changeView : Action → MasterThread Unit
  | .copyFrom a => do
      update (.addFileToManager a.srcMgr.name a.key)
      update (.removeFileFromManager a.dstMgr.name a.key)
  | .remove a => update (.removeFileFromManager a.mgr.name a.key)
  | .put a => update (.addFileToManager a.mgr.name a.key)
  | .get _ | .notSet => pure ()

def storageChange (request : StorageChangeRequest) : MasterThread Status := do
  forM request.storageChange changeView
  return .ok

def getView : MasterThread (Status × GetViewReply) := do
  let reply ← Prog.perform (.populateFiles {})
  let reply ← Prog.perform (.populateUris reply)
  return (.ok, reply)

/-- One step of a handler. The tables are traversed in one of their orders. -/
def Step {α : Type} (m : StorageMaster) (p : MasterThread α) (c : Σ β, LockedStep β)
    (m' : StorageMaster) (p' : MasterThread α) : Prop :=
  ∃ o, m.fileView.TraversedBy o ∧ Prog.Step (LockedStep.handle o) m p c m' p'

/-- A handler that is not interrupted. -/
abbrev alone {α : Type} (o : ViewOrder) (p : MasterThread α) : Handler StorageMaster α :=
  p.eval (LockedStep.handle o)

/-! ## Handlers that only write -/

/-- The updates one after the other, and then the result. -/
def script {α : Type} : List TableUpdate → α → MasterThread α
  | [], a => .done a
  | u :: us, a => .call (.update u) fun _ => script us a

def introduceUpdates (peer : String) (request : IntroduceRequest) : List TableUpdate :=
  let name := StorageMaster.generateName request
  match request with
  | .storageManager introduce =>
      .addPeer name (StorageMaster.rpcUri introduce.rpcHostname introduce.rpcPort) peer ::
        .addManager name :: introduce.file.map (.addFileToManager name)
  | .storageClient introduce =>
      [.addPeer name (StorageMaster.rpcUri introduce.rpcHostname introduce.rpcPort) peer]
  | .notSet => []

def changeUpdates : Action → List TableUpdate
  | .copyFrom a =>
      [.addFileToManager a.srcMgr.name a.key, .removeFileFromManager a.dstMgr.name a.key]
  | .remove a => [.removeFileFromManager a.mgr.name a.key]
  | .put a => [.addFileToManager a.mgr.name a.key]
  | .get _ | .notSet => []

variable {α β : Type}

theorem update_eq_script (u : TableUpdate) : update u = script [u] () := rfl

theorem script_bind (us us' : List TableUpdate) (a : α) (b : β) :
    (script us a >>= fun _ => script us' b) = script (us ++ us') b := by
  induction us with
  | nil => rfl
  | cons u us ih => exact congrArg (Prog.call (.update u)) (funext fun _ => ih)

theorem script_map (f : α → β) (us : List TableUpdate) (a : α) :
    f <$> script us a = script us (f a) := by
  rw [map_eq_pure_bind]
  induction us with
  | nil => rfl
  | cons u us ih => exact congrArg (Prog.call (.update u)) (funext fun _ => ih)

theorem forM_script {γ : Type} (l : List γ) (f : γ → MasterThread Unit)
    (us : γ → List TableUpdate) (h : ∀ x, f x = script (us x) ()) :
    forM l f = script (l.flatMap us) () := by
  induction l with
  | nil => rfl
  | cons x l ih =>
      rw [List.forM_cons, h, ih, script_bind, List.flatMap_cons]

theorem changeView_eq_script (a : Action) : changeView a = script (changeUpdates a) () := by
  cases a <;> rfl

/-- `StorageChange` makes its updates one at a time. -/
theorem storageChange_eq_script (request : StorageChangeRequest) :
    storageChange request = script (request.storageChange.flatMap changeUpdates) .ok := by
  have hdone : (pure .ok : MasterThread Status) = script [] .ok := rfl
  rw [storageChange, forM_script _ _ _ changeView_eq_script, hdone, script_bind, List.append_nil]

/-- `Introduce` makes its updates one at a time. -/
theorem introduce_eq_script (peer : String) (request : IntroduceRequest) :
    introduce peer request =
      script (introduceUpdates peer request) (.ok, ⟨StorageMaster.generateName request⟩) := by
  cases request with
  | storageClient i => rfl
  | notSet => rfl
  | storageManager i =>
      have hfiles : (forM i.file fun key => update (.addFileToManager
          (StorageMaster.generateName (.storageManager i)) key)) = script (i.file.flatMap fun key =>
            [.addFileToManager (StorageMaster.generateName (.storageManager i)) key]) () :=
        forM_script _ _ _ fun _ => rfl
      have hdone : ∀ r : Status × IntroduceReply, (pure r : MasterThread _) = script [] r :=
        fun _ => rfl
      simp only [introduce, hfiles, hdone]
      simp only [update_eq_script, script_bind, ← List.map_eq_flatMap, List.append_nil]
      rfl

end MasterThread

/-! ## Requests -/

/-- The requests that read or write the tables of the master. -/
inductive MasterCall
  | update (e : MasterRequest)
  | getView
  deriving DecidableEq, Repr

inductive MasterReply
  | introduce (status : Status) (reply : IntroduceReply)
  | storageChange (status : Status)
  | getView (status : Status) (reply : GetViewReply)
  deriving DecidableEq, Repr

/-- What the handler of a request writes, in order. -/
def MasterRequest.updates : MasterRequest → List TableUpdate
  | .introduce peer request => MasterThread.introduceUpdates peer request
  | .storageChange request => request.storageChange.flatMap MasterThread.changeUpdates

def MasterRequest.reply : MasterRequest → MasterReply
  | .introduce _ request => .introduce .ok ⟨StorageMaster.generateName request⟩
  | .storageChange _ => .storageChange .ok

/-- The handler of a request. -/
def MasterCall.code : MasterCall → MasterThread MasterReply
  | .update (.introduce peer request) => do
      let (status, reply) ← MasterThread.introduce peer request
      return .introduce status reply
  | .update (.storageChange request) => do
      let status ← MasterThread.storageChange request
      return .storageChange status
  | .getView => do
      let (status, reply) ← MasterThread.getView
      return .getView status reply

namespace MasterThread

theorem code_update (e : MasterRequest) :
    (MasterCall.update e).code = script e.updates e.reply := by
  cases e with
  | introduce peer request =>
      simp only [MasterCall.code, introduce_eq_script, ← map_eq_pure_bind]
      exact script_map ..
  | storageChange request =>
      simp only [MasterCall.code, storageChange_eq_script, ← map_eq_pure_bind]
      exact script_map ..

/-! ## Handlers that are not interrupted -/

variable {α : Type}

theorem alone_script (o : ViewOrder) (us : List TableUpdate) (a : α) (m : StorageMaster) :
    alone o (script us a) m = .ok (a, us.foldl TableUpdate.apply m) := by
  induction us generalizing m with
  | nil => rfl
  | cons u us ih => exact ih (u.apply m)

theorem foldl_apply_fileView (us : List TableUpdate) (m : StorageMaster) :
    (us.foldl TableUpdate.apply m).fileView = us.foldl TableUpdate.onView m.fileView := by
  induction us generalizing m with
  | nil => rfl
  | cons u us ih => exact ih (u.apply m)

theorem foldl_changeUpdates (actions : List Action) (m : StorageMaster) :
    (actions.flatMap changeUpdates).foldl TableUpdate.apply m =
      { m with fileView := actions.foldl StorageMaster.changeView m.fileView } := by
  induction actions generalizing m with
  | nil => rfl
  | cons a actions ih =>
      rw [List.flatMap_cons, List.foldl_append, ih]
      cases a <;> rfl

theorem foldl_addFiles (name : String) (keys : List String) (m : StorageMaster) :
    (keys.map (TableUpdate.addFileToManager name)).foldl TableUpdate.apply m =
      { m with fileView := keys.foldl (fun v key => v.addFileToManager name key) m.fileView } := by
  induction keys generalizing m with
  | nil => rfl
  | cons key keys ih => exact ih _

/-- The updates of a request, one after the other, are what its handler does. -/
theorem foldl_updates (e : MasterRequest) (m : StorageMaster) :
    e.updates.foldl TableUpdate.apply m = m.handle e := by
  cases e with
  | storageChange request => exact foldl_changeUpdates _ m
  | introduce peer request =>
      cases request with
      | storageClient i => rfl
      | notSet => rfl
      | storageManager i => exact foldl_addFiles _ _ _

/-- An uninterrupted `Introduce` or `StorageChange` is the handler. -/
theorem alone_update (o : ViewOrder) (e : MasterRequest) (m : StorageMaster) :
    alone o (MasterCall.update e).code m = .ok (e.reply, m.handle e) := by
  rw [code_update, alone_script, foldl_updates]

/-- An uninterrupted `GetView` is the handler. -/
theorem alone_getView (o : ViewOrder) (m : StorageMaster) :
    alone o getView m = (m.getView o).map fun r => (r, m) := by
  have hfiles : LockedStep.handle o (.populateFiles {}) m =
      .ok (m.fileView.populateViewReply o {}, m) := rfl
  simp only [getView, alone, Prog.eval_bind, Prog.eval_perform]
  rw [Handler.bind_of_ok hfiles, Handler.bind_apply]
  simp only [LockedStep.handle, StorageMaster.getView]
  cases m.peerTracker.populateViewReply (m.fileView.populateViewReply o {}) with
  | error e => rfl
  | ok r => rfl

end MasterThread

end ProgrammableCaching
