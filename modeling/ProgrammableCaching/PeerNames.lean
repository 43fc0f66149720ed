import ProgrammableCaching.ParsableViews

/-! What the names of peers stand for. The master joins the fields of an introduction with `:`, and
the scheduler cuts the storage of a manager out of its name. -/

namespace ProgrammableCaching

/-- The value is one that the enum declares. -/
def StorageType.Declared : StorageType → Prop
  | .unrecognized _ => False
  | .managed | .unmanaged => True

instance StorageType.decidableDeclared (type : StorageType) : Decidable type.Declared := by
  cases type <;> unfold StorageType.Declared <;> infer_instance

/-- `StorageType_Parse`: only the declared names parse. -/
def StorageType.parse (name : String) : Option StorageType :=
  if name = "MANAGED" then some .managed
  else if name = "UNMANAGED" then some .unmanaged
  else none

theorem StorageType.parse_eq_some {text : String} {type : StorageType} :
    StorageType.parse text = some type ↔ type.Declared ∧ text = type.name := by
  unfold StorageType.parse
  constructor
  · intro h
    split_ifs at h <;> cases h <;> exact ⟨trivial, ‹_›⟩
  · rintro ⟨hdeclared, rfl⟩
    cases type <;> first | rfl | exact absurd hdeclared id

/-- Who a peer is: a manager of a storage on a host, or a client on a host. -/
inductive PeerIdentity
  | manager (storageName : StorageName) (storageType : StorageType) (hostname : String)
  | client (hostname : String)
  deriving DecidableEq, Repr

/-- Who has the name: its kind stands before the first `:`, and the hostname behind the last of
the fields that cannot have a `:`. -/
def PeerIdentity.ofName (name : String) : Option PeerIdentity :=
  let kind := Fields.first ':' name.toList
  let rest := Fields.behind ':' name.toList
  if kind = "client".toList then some (.client (String.ofList rest))
  else if kind = "manager".toList then do
    let storageName ← StorageName.parse (String.ofList (Fields.first ':' rest))
    let rest := Fields.behind ':' rest
    let storageType ← StorageType.parse (String.ofList (Fields.first ':' rest))
    some (.manager storageName storageType (String.ofList (Fields.behind ':' rest)))
  else none

namespace IntroduceRequest

/-- Who introduces itself; nobody, when no case is set. -/
def identity : IntroduceRequest → Option PeerIdentity
  | .storageManager i => some (.manager i.storageName i.storageType i.rpcHostname)
  | .storageClient i => some (.client i.rpcHostname)
  | .notSet => none

/-- The enums of the request have declared values. -/
def Declared : IntroduceRequest → Prop
  | .storageManager i => i.storageName.Declared ∧ i.storageType.Declared
  | .storageClient _ | .notSet => True

instance decidableDeclared (request : IntroduceRequest) : Decidable request.Declared := by
  cases request <;> unfold Declared <;> infer_instance

end IntroduceRequest

namespace StorageMaster

/-- The scheduler reads the storage of a manager back from its name. -/
theorem nameToStorageName_generateName {i : StorageManagerIntroduce} (h : i.storageName.Declared) :
    ∃ sName, nameToStorageName (generateName (.storageManager i)) = .ok sName ∧
      StorageName.parse sName = some i.storageName :=
  (nameToStorageName_parses_iff _ _).mpr ((namesStorage_generateName_iff h).mpr rfl)

/-- The names lead back to the peers that introduce themselves under them. -/
theorem ofName_generateName {request : IntroduceRequest} (h : request.Declared) :
    PeerIdentity.ofName (generateName request) = request.identity := by
  cases request with
  | notSet => rfl
  | storageClient i =>
      have hcolon : ':' ∉ "client".toList := by decide
      rw [PeerIdentity.ofName, toList_generateName_client, Fields.first_join hcolon,
        Fields.behind_join hcolon, if_pos rfl, String.ofList_toList]
      rfl
  | storageManager i =>
      have hcolon : ':' ∉ "manager".toList := by decide
      have hkind : "manager".toList ≠ "client".toList := by decide
      have hstorage := StorageName.parse_eq_some.mpr ⟨h.1, rfl⟩
      have htype := StorageType.parse_eq_some.mpr ⟨h.2, rfl⟩
      rw [PeerIdentity.ofName, toList_generateName_manager, Fields.first_join hcolon,
        Fields.behind_join hcolon, if_neg hkind, if_pos rfl]
      simp only [Fields.first_join i.storageName.colon_notMem_name,
        Fields.behind_join i.storageName.colon_notMem_name,
        Fields.first_join i.storageType.colon_notMem_name,
        Fields.behind_join i.storageType.colon_notMem_name, String.ofList_toList, hstorage, htype]
      rfl

/-- **Names stand for peers.** The scheduler reads the storage of a manager back from its name,
and different peers have different names. -/
theorem generateName_undone :
    (∀ i : StorageManagerIntroduce, i.storageName.Declared → i.storageType.Declared →
      ∃ sName, nameToStorageName (generateName (.storageManager i)) = .ok sName ∧
        StorageName.parse sName = some i.storageName) ∧
      ∀ request request' : IntroduceRequest, request.Declared → request'.Declared →
        request.identity ≠ request'.identity → generateName request ≠ generateName request' := by
  constructor
  · exact fun i h _ => nameToStorageName_generateName h
  · intro request request' h h' hne hname
    refine hne ?_
    rw [← ofName_generateName h, ← ofName_generateName h', hname]

section Example

/-- A manager whose hostname looks like the name of another one. -/
def lookAlikeManager : StorageManagerIntroduce where
  storageType := .unmanaged
  storageName := .redis
  rpcHostname := "manager:EPHEMERAL:MANAGED:h"

theorem generateName_undone_lookAlike :
    (∃ sName, nameToStorageName (generateName (.storageManager lookAlikeManager)) = .ok sName ∧
        StorageName.parse sName = some .redis) ∧
      generateName (.storageManager lookAlikeManager) ≠
        generateName (.storageClient { rpcHostname := "manager:EPHEMERAL:MANAGED:h" }) :=
  ⟨generateName_undone.1 lookAlikeManager trivial trivial,
    generateName_undone.2 _ _ (by decide) trivial (by decide)⟩

end Example

end StorageMaster

end ProgrammableCaching
