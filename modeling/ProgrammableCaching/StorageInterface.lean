import Mathlib.Data.Finmap
import ProgrammableCaching.Library.UnorderedMap
import ProgrammableCaching.Handler
import ProgrammableCaching.Proto

/-! `storage_interfaces/storage_interface.h`: the abstract class a storage
manager is built over, and what it means that a storage medium never fails. -/

namespace ProgrammableCaching

open UnorderedMap

/-- `StorageInterface::Status`. -/
inductive StorageStatus
  | genericError
  | ok
  deriving DecidableEq, Repr

/-- The virtual methods, as functions of the medium's state `σ`. An output
parameter is passed with the contents it has before the call and returned with
those it has afterwards. -/
class StorageInterface (σ : Type) where
  get : σ → (key : String) → (value : String) → StorageStatus × String × σ
  put : σ → (key : String) → (value : String) → StorageStatus × σ
  remove : σ → (key : String) → StorageStatus × σ
  getAllKeys : σ → (keys : List String) → StorageStatus × List String × σ
  getStorageType : σ → StorageType
  getStorageName : σ → StorageName

/-- A medium whose operations all succeed: it behaves as the finite map
`contents`, a lookup of a missing key reports an error and leaves the output
parameter alone. -/
class LawfulStorage (σ : Type) [StorageInterface σ] where
  contents : σ → UMap String String
  get_hit (s : σ) (key value v : String) (h : (contents s).lookup key = some v) :
    (StorageInterface.get s key value).1 = .ok ∧ (StorageInterface.get s key value).2.1 = v
  get_miss (s : σ) (key value : String) (h : (contents s).lookup key = none) :
    (StorageInterface.get s key value).1 = .genericError ∧
      (StorageInterface.get s key value).2.1 = value
  contents_get (s : σ) (key value : String) :
    contents (StorageInterface.get s key value).2.2 = contents s
  put_ok (s : σ) (key value : String) : (StorageInterface.put s key value).1 = .ok
  contents_put (s : σ) (key value : String) :
    contents (StorageInterface.put s key value).2 = (contents s).insert key value
  remove_ok (s : σ) (key : String) : (StorageInterface.remove s key).1 = .ok
  contents_remove (s : σ) (key : String) :
    contents (StorageInterface.remove s key).2 = (contents s).erase key
  getAllKeys_spec (s : σ) (keys : List String) :
    (StorageInterface.getAllKeys s keys).1 = .ok ∧
      ∃ order, Enumerates order (contents s) ∧
        (StorageInterface.getAllKeys s keys).2.1 = keys ++ order
  contents_getAllKeys (s : σ) (keys : List String) :
    contents (StorageInterface.getAllKeys s keys).2.2 = contents s

attribute [simp] LawfulStorage.contents_get LawfulStorage.contents_put
  LawfulStorage.contents_remove LawfulStorage.contents_getAllKeys LawfulStorage.put_ok
  LawfulStorage.remove_ok

/-! ## A medium in memory -/

/-- A storage medium kept as an association list, listed in insertion order. -/
structure MapStorage where
  db : AList (fun _ : String => String) := ∅
  storageType : StorageType := .managed
  storageName : StorageName := .ephemeral

instance : StorageInterface MapStorage where
  get s key value :=
    match s.db.lookup key with
    | some v => (.ok, v, s)
    | none => (.genericError, value, s)
  put s key value := (.ok, { s with db := s.db.insert key value })
  remove s key := (.ok, { s with db := s.db.erase key })
  getAllKeys s keys := (.ok, keys ++ s.db.keys, s)
  getStorageType s := s.storageType
  getStorageName s := s.storageName

instance : LawfulStorage MapStorage where
  contents s := s.db.toFinmap
  get_hit s key value v h := by
    rw [Finmap.lookup_toFinmap] at h
    simp [StorageInterface.get, h]
  get_miss s key value h := by
    rw [Finmap.lookup_toFinmap] at h
    simp [StorageInterface.get, h]
  contents_get s key value := by
    simp only [StorageInterface.get]
    split <;> rfl
  put_ok s key value := rfl
  contents_put s key value := by simp [StorageInterface.put]
  remove_ok s key := rfl
  contents_remove s key := by simp [StorageInterface.remove]
  getAllKeys_spec s keys :=
    ⟨rfl, s.db.keys, ⟨s.db.nodupKeys, fun k => by simp [AList.mem_keys]⟩, rfl⟩
  contents_getAllKeys s keys := rfl

end ProgrammableCaching
