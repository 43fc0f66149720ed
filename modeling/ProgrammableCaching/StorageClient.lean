import ProgrammableCaching.RuleDb

/-! `storage_client/storage_client.cc`: the interpreters of GET and PUT rules,
over the stubs of `rpc_interfaces/storage_manager_interface.h` and
`storage_master_interface.h`. -/

namespace ProgrammableCaching

/-- The calls a storage client makes: to the manager listening at a uri, and
to the storage master. `m` is the kind of code that makes them. -/
class RpcInterfaces (m : Type → Type*) where
  managerGet : (uri : String) → GetRequest → m (Status × GetReply)
  managerPut : (uri : String) → PutRequest → m Status
  managerRemove : (uri : String) → RemoveRequest → m Status
  managerCopyFrom : (uri : String) → CopyFromRequest → m Status
  storageChange : StorageChangeRequest → m Status

namespace StorageClient

open RpcInterfaces

section

variable {m : Type → Type*} [Monad m] [MonadExceptOf Failure m] [RpcInterfaces m]

def executeGetAction (action : GetAction) : m GetReply := do
  let (_, reply) ← managerGet action.mgr.uri { key := action.key }
  return reply

def executeCopyAction (action : CopyFromAction) : m Unit := do
  let _ ← managerCopyFrom action.srcMgr.uri { key := action.key, dstUri := action.dstMgr.uri }

/-- The change reported here is an empty one; the action itself is reported at
the end of `put`. -/
def executePutAction (action : PutAction) (request : PutRequest) : m Unit := do
  let _ ← managerPut action.mgr.uri request
  let _ ← storageChange {}

def executeRemoveAction (action : RemoveAction) : m Unit := do
  let _ ← managerRemove action.mgr.uri { key := action.key }

/-- The loop of `Get` over the actions before the last; returns the changes to
report. -/
def getLoop : List Action → (req : List Action) → m (List Action)
  | [], req => return req
  | .get _ :: _, _ => throw .assertion
  | .copyFrom a :: rest, req => do
      executeCopyAction a
      getLoop rest (req ++ [.copyFrom a])
  | .remove a :: rest, req => do
      executeRemoveAction a
      getLoop rest (req ++ [.remove a])
  | .put _ :: _, _ => throw .assertion
  | .notSet :: rest, req => getLoop rest req

def get (d : RuleDb) (request : GetRequest) : m (Status × GetReply) := do
  check (d.hasMatchingRule request.key .get)
  let r ← lift (d.getMatchingRule request.key .get)
  let req ← getLoop r.action.dropLast []
  let s ← storageChange { storageChange := req }
  check s.isOk
  match r.action.getLast? with
  | none => throw .outOfRange
  | some (.get lastAction) =>
      check (lastAction.key = request.key)
      let reply ← executeGetAction lastAction
      return (.ok, reply)
  | some _ => throw .assertion

/-- The case `kPutAction` of the loop of `Put`. The case `kRemoveAction` has no
`break` and falls through into it, with the default message as its put action. -/
def putCase (request : PutRequest) (currentAction : Action) : m Unit := do
  check (currentAction.putAction.key = request.key)
  executePutAction currentAction.putAction request

/-- The loop of `Put`; returns the changes to report. -/
def putLoop (request : PutRequest) : List Action → (req : List Action) → m (List Action)
  | [], req => return req
  | .get _ :: _, _ => throw .assertion
  | .copyFrom a :: rest, req => do
      executeCopyAction a
      putLoop request rest (req ++ [.copyFrom a])
  | .remove a :: rest, req => do
      executeRemoveAction a
      putCase request (.remove a)
      putLoop request rest (req ++ [.remove a, .remove a])
  | .put a :: rest, req => do
      putCase request (.put a)
      putLoop request rest (req ++ [.put a])
  | .notSet :: rest, req => putLoop request rest req

def put (d : RuleDb) (request : PutRequest) : m Status := do
  check (d.hasMatchingRule request.key .put)
  let r ← lift (d.getMatchingRule request.key .put)
  let req ← putLoop request r.action []
  let s ← storageChange { storageChange := req }
  check s.isOk
  return .ok

end

def installRule (d : RuleDb) (request : InstallRuleRequest) : Status × RuleDb :=
  (.ok, d.addRule request.rule)

def removeRule (d : RuleDb) (request : RemoveRuleRequest) : Status × RuleDb :=
  (.ok, d.removeRule request.rule)

end StorageClient

end ProgrammableCaching
