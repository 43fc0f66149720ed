import Mathlib.Data.Finmap

/-! The messages of `proto/common.proto`, `proto/storage_service.proto` and
`proto/scheduler.proto`. Unset fields have their proto3 defaults, a `oneof` is
an inductive type with a case for "not set", and an enum also carries the
numbers that proto3 accepts without declaring them. -/

namespace ProgrammableCaching

/-- The numbers of a proto3 enum that declares `0, ..., n - 1`. -/
abbrev Undeclared (n : Int32) := {number : Int32 // number < 0 ∨ n ≤ number}

/-! ## common.proto -/

structure Task where
  id : String := ""
  inputFile : String := ""
  outputFile : String := ""
  deriving DecidableEq, Repr

inductive OperationType
  | get
  | put
  | remove
  | unrecognized (number : Undeclared 3)
  deriving DecidableEq, Repr

/-- `OperationType_Name`: empty for a number without a declared name. -/
def OperationType.name : OperationType → String
  | .get => "GET"
  | .put => "PUT"
  | .remove => "REMOVE"
  | .unrecognized _ => ""

/-- `Action.Manager`: the name comes from the scheduler, the uri from the
storage master. -/
structure Manager where
  name : String := ""
  uri : String := ""
  deriving DecidableEq, Repr

structure GetAction where
  key : String := ""
  mgr : Manager := {}
  deriving DecidableEq, Repr

structure CopyFromAction where
  key : String := ""
  srcMgr : Manager := {}
  dstMgr : Manager := {}
  deriving DecidableEq, Repr

structure RemoveAction where
  key : String := ""
  mgr : Manager := {}
  deriving DecidableEq, Repr

structure PutAction where
  key : String := ""
  mgr : Manager := {}
  deriving DecidableEq, Repr

inductive Action
  | get (action : GetAction)
  | copyFrom (action : CopyFromAction)
  | remove (action : RemoveAction)
  | put (action : PutAction)
  | notSet
  deriving DecidableEq, Repr

/-- The accessor `put_action()`: the default message when another case is set. -/
def Action.putAction : Action → PutAction
  | .put action => action
  | _ => {}

/-- `has_copy_from_action()`. -/
def Action.isCopy : Action → Bool
  | .copyFrom _ => true
  | _ => false

/-- `has_remove_action()`. -/
def Action.isRemove : Action → Bool
  | .remove _ => true
  | _ => false

/-- `has_put_action()`. -/
def Action.isPut : Action → Bool
  | .put _ => true
  | _ => false

def Action.isPutOf (key : String) : Action → Bool
  | .put a => a.key = key
  | _ => false

structure Rule where
  opType : OperationType := .get
  key : String := ""
  action : List Action := []
  deriving DecidableEq, Repr

inductive StorageName
  | ephemeral
  | amazonS3
  | redis
  | fakePersistant
  | unrecognized (number : Undeclared 4)
  deriving DecidableEq, Repr

/-- `StorageName_Name`. -/
def StorageName.name : StorageName → String
  | .ephemeral => "EPHEMERAL"
  | .amazonS3 => "AMAZONS3"
  | .redis => "REDIS"
  | .fakePersistant => "FAKE_PERSISTANT"
  | .unrecognized _ => ""

/-- `StorageName_Parse`: only the declared names parse. -/
def StorageName.parse (name : String) : Option StorageName :=
  if name = "EPHEMERAL" then some .ephemeral
  else if name = "AMAZONS3" then some .amazonS3
  else if name = "REDIS" then some .redis
  else if name = "FAKE_PERSISTANT" then some .fakePersistant
  else none

/-- The value is one that the enum declares. -/
def StorageName.Declared : StorageName → Prop
  | .unrecognized _ => False
  | .ephemeral | .amazonS3 | .redis | .fakePersistant => True

instance (name : StorageName) : Decidable name.Declared := by
  cases name <;> unfold StorageName.Declared <;> infer_instance

theorem StorageName.name_injective {name name' : StorageName} (h : name.Declared)
    (htext : name.name = name'.name) : name = name' := by
  cases name <;> cases name' <;>
    first | rfl | exact absurd h id | simp [StorageName.name] at htext

/-- Only the declared names parse. -/
theorem StorageName.parse_eq_some {text : String} {name : StorageName} :
    StorageName.parse text = some name ↔ name.Declared ∧ text = name.name := by
  unfold StorageName.parse
  constructor
  · intro h
    split_ifs at h <;> cases h <;> exact ⟨trivial, ‹_›⟩
  · rintro ⟨hdeclared, rfl⟩
    cases name <;> first | rfl | exact absurd hdeclared id

theorem StorageName.colon_notMem_name (name : StorageName) : ':' ∉ name.name.toList := by
  cases name <;> simp [StorageName.name]

/-! ## storage_service.proto -/

inductive StorageType
  | managed
  | unmanaged
  | unrecognized (number : Undeclared 2)
  deriving DecidableEq, Repr

/-- `StorageType_Name`. -/
def StorageType.name : StorageType → String
  | .managed => "MANAGED"
  | .unmanaged => "UNMANAGED"
  | .unrecognized _ => ""

theorem StorageType.colon_notMem_name (type : StorageType) : ':' ∉ type.name.toList := by
  cases type <;> simp [StorageType.name]

structure StorageManagerIntroduce where
  storageType : StorageType := .managed
  storageName : StorageName := .ephemeral
  rpcHostname : String := ""
  rpcPort : String := ""
  /-- The keys of the repeated `FileId` field. -/
  file : List String := []
  deriving DecidableEq, Repr

structure StorageClientIntroduce where
  rpcHostname : String := ""
  rpcPort : String := ""
  deriving DecidableEq, Repr

inductive IntroduceRequest
  | storageManager (introduce : StorageManagerIntroduce)
  | storageClient (introduce : StorageClientIntroduce)
  | notSet
  deriving DecidableEq, Repr

structure IntroduceReply where
  name : String := ""
  deriving DecidableEq, Repr

structure CopyFromRequest where
  key : String := ""
  dstUri : String := ""
  deriving DecidableEq, Repr

structure GetRequest where
  key : String := ""
  deriving DecidableEq, Repr

structure GetReply where
  value : String := ""
  deriving DecidableEq, Repr

structure PutRequest where
  key : String := ""
  value : String := ""
  deriving DecidableEq, Repr

structure RemoveRequest where
  key : String := ""
  deriving DecidableEq, Repr

structure InstallRuleRequest where
  client : String := ""
  rule : Rule := {}
  deriving DecidableEq, Repr

structure RemoveRuleRequest where
  client : String := ""
  rule : Rule := {}
  deriving DecidableEq, Repr

structure StorageChangeRequest where
  storageChange : List Action := []
  deriving DecidableEq, Repr

structure ManagerView where
  name : String := ""
  uri : String := ""
  key : List String := []
  deriving DecidableEq, Repr

structure ClientView where
  name : String := ""
  uri : String := ""
  deriving DecidableEq, Repr

structure GetViewReply where
  view : List ManagerView := []
  client : List ClientView := []
  deriving DecidableEq, Repr

/-! ## scheduler.proto -/

structure SchedulerIntroduceRequest where
  rpcUri : String := ""
  clientRpcUri : String := ""
  maximumTasks : Int32 := 0
  deriving DecidableEq, Repr

end ProgrammableCaching
