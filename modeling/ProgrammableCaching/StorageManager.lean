import ProgrammableCaching.StorageInterface

/-! `storage_manager/storage_manager.cc`: the handlers that touch only the
manager's own medium. `CopyFrom` also calls another manager and is defined with
the running system, in `World.lean`. -/

namespace ProgrammableCaching.StorageManager

open UnorderedMap

variable {σ : Type} [StorageInterface σ]

/-- A storage error is logged and the reply keeps its empty value. -/
def get (s : σ) (request : GetRequest) : Status × GetReply × σ :=
  let (_, data, s') := StorageInterface.get s request.key ""
  (.ok, { value := data }, s')

def put (s : σ) (request : PutRequest) : Status × σ :=
  let (_, s') := StorageInterface.put s request.key request.value
  (.ok, s')

def remove (s : σ) (request : RemoveRequest) : Status × σ :=
  let (_, s') := StorageInterface.remove s request.key
  (.ok, s')

/-- The request `StorageManager::Start` introduces itself with: the medium's
type and name, the manager's address and every key of the medium. -/
def startRequest (s : σ) (hostname port : String) : StorageManagerIntroduce × σ :=
  let (_, keys, s') := StorageInterface.getAllKeys s []
  ({ storageType := StorageInterface.getStorageType s
     storageName := StorageInterface.getStorageName s
     rpcHostname := hostname
     rpcPort := port
     file := keys }, s')

section Lawful

variable [LawfulStorage σ]

/-- A reply carries the stored value, or nothing when the key is missing. -/
theorem get_value (s : σ) (request : GetRequest) :
    (get s request).2.1.value = ((LawfulStorage.contents s).lookup request.key).getD "" := by
  cases h : (LawfulStorage.contents s).lookup request.key with
  | none => simp [get, (LawfulStorage.get_miss s request.key "" h).2]
  | some v => simp [get, (LawfulStorage.get_hit s request.key "" v h).2]

@[simp] theorem contents_get (s : σ) (request : GetRequest) :
    LawfulStorage.contents (get s request).2.2 = LawfulStorage.contents s := by
  simp [get]

@[simp] theorem contents_put (s : σ) (request : PutRequest) :
    LawfulStorage.contents (put s request).2 =
      (LawfulStorage.contents s).insert request.key request.value := by
  simp [put]

@[simp] theorem contents_remove (s : σ) (request : RemoveRequest) :
    LawfulStorage.contents (remove s request).2 =
      (LawfulStorage.contents s).erase request.key := by
  simp [remove]

@[simp] theorem contents_startRequest (s : σ) (hostname port : String) :
    LawfulStorage.contents (startRequest s hostname port).2 = LawfulStorage.contents s := by
  simp [startRequest]

/-- A starting manager introduces exactly the keys it holds. -/
theorem mem_startRequest_file (s : σ) (hostname port key : String) :
    key ∈ (startRequest s hostname port).1.file ↔ key ∈ LawfulStorage.contents s := by
  obtain ⟨_, order, horder, hkeys⟩ := LawfulStorage.getAllKeys_spec s []
  simp only [startRequest, hkeys, List.nil_append]
  exact horder.2 key

end Lawful

end ProgrammableCaching.StorageManager
