import ProgrammableCaching.Library.Pools
import ProgrammableCaching.RuleExecution

/-! The handlers of a storage client as programs that make one call at a time,
so that the calls of several handlers can take turns. -/

namespace ProgrammableCaching

open UnorderedMap Replicas Handler RpcInterfaces Pools

/-- The calls that clients make, and the two steps of a manager's `CopyFrom`:
the `Get` it sends and the store of what came back. -/
inductive Rpc : Type → Type
  | managerGet (uri : String) (request : GetRequest) : Rpc (Status × GetReply)
  | managerPut (uri : String) (request : PutRequest) : Rpc Status
  | managerRemove (uri : String) (request : RemoveRequest) : Rpc Status
  | copyFromFetch (uri : String) (request : CopyFromRequest) : Rpc GetReply
  | copyFromStore (uri : String) (request : CopyFromRequest) (reply : GetReply) : Rpc Status
  | storageChange (request : StorageChangeRequest) : Rpc Status

/-- The effect of a call that is handled without interruption. -/
def Rpc.handle {σ : Type} [StorageInterface σ] {β : Type} : Rpc β → Handler (World σ) β
  | managerGet uri request => World.managerGet uri request
  | managerPut uri request => World.managerPut uri request
  | managerRemove uri request => World.managerRemove uri request
  | copyFromFetch uri request => World.copyFromFetch uri request
  | copyFromStore uri request reply => World.copyFromStore uri request reply
  | storageChange request => World.storageChange request

/-- A handler of a storage client, or what is left of one. -/
abbrev ClientThread := Prog Rpc Failure

instance : RpcInterfaces ClientThread where
  managerGet uri request := .perform (.managerGet uri request)
  managerPut uri request := .perform (.managerPut uri request)
  managerRemove uri request := .perform (.managerRemove uri request)
  managerCopyFrom uri request := do
    let reply ← Prog.perform (.copyFromFetch uri request)
    Prog.perform (.copyFromStore uri request reply)
  storageChange request := .perform (.storageChange request)

namespace ClientThread

variable {σ : Type} [StorageInterface σ]

/-- One call of a thread. -/
abbrev Step {α : Type} :
    World σ → ClientThread α → (Σ β, Rpc β) → World σ → ClientThread α → Prop :=
  Prog.Step Rpc.handle

/-- The first call of a thread is made when it comes back. -/
theorem exists_step {α β : Type} {c : Rpc β} {k : β → ClientThread α} {w : World σ}
    {r : β × World σ} (h : Rpc.handle c w = .ok r) : Step w (.call c k) ⟨β, c⟩ r.2 (k r.1) :=
  Prog.step_call.mpr ⟨rfl, r.1, h, rfl⟩

/-- A thread that is not interrupted. -/
abbrev alone {α : Type} (p : ClientThread α) : Handler (World σ) α := p.eval Rpc.handle

@[simp] theorem alone_managerGet (uri : String) (request : GetRequest) :
    alone (managerGet uri request : ClientThread _) =
      (managerGet uri request : Handler (World σ) _) :=
  Prog.eval_perform _

@[simp] theorem alone_managerPut (uri : String) (request : PutRequest) :
    alone (managerPut uri request : ClientThread _) =
      (managerPut uri request : Handler (World σ) _) :=
  Prog.eval_perform _

@[simp] theorem alone_managerRemove (uri : String) (request : RemoveRequest) :
    alone (managerRemove uri request : ClientThread _) =
      (managerRemove uri request : Handler (World σ) _) :=
  Prog.eval_perform _

@[simp] theorem alone_managerCopyFrom (uri : String) (request : CopyFromRequest) :
    alone (managerCopyFrom uri request : ClientThread _) =
      (managerCopyFrom uri request : Handler (World σ) _) := by
  simp only [alone, managerCopyFrom, Prog.eval_bind, Prog.eval_perform]
  rfl

end ClientThread

namespace StorageClient

open ClientThread

section

variable {m : Type → Type*} [Monad m] [MonadExceptOf Failure m] [RpcInterfaces m]

/-- The rest of `Get`, behind the lookup of its rule. -/
def getWith (r : Rule) (request : GetRequest) : m (Status × GetReply) := do
  let req ← getLoop r.action.dropLast []
  let s ← storageChange { storageChange := req }
  check s.isOk
  match r.action.getLast? with
  | none => throw .outOfRange
  | some (.get lastAction) =>
      check (lastAction.key = request.key)
      let reply ← executeGetAction lastAction
      return (.ok, reply)
  | some _ => throw .assertion

/-- The rest of `Put`, behind the lookup of its rule. -/
def putWith (r : Rule) (request : PutRequest) : m Status := do
  let req ← putLoop request r.action []
  let s ← storageChange { storageChange := req }
  check s.isOk
  return .ok

theorem get_eq_getWith (d : RuleDb) (request : GetRequest) : (get d request : m _) = (do
    check (d.hasMatchingRule request.key .get)
    let r ← lift (d.getMatchingRule request.key .get)
    getWith r request) := rfl

theorem put_eq_putWith (d : RuleDb) (request : PutRequest) : (put d request : m _) = (do
    check (d.hasMatchingRule request.key .put)
    let r ← lift (d.getMatchingRule request.key .put)
    putWith r request) := rfl

end

variable {σ : Type} [StorageInterface σ]

end StorageClient

end ProgrammableCaching
