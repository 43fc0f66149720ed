import ProgrammableCaching.Library.Fields
import ProgrammableCaching.Library.LastWriter
import ProgrammableCaching.Library.Runs
import ProgrammableCaching.StorageInterface

/-! `storage_interfaces/rocksdb_storage_interface.cc` and
`storage_interfaces/redis_storage_interface.cc`: storage over a rocksdb database and over a
redis server, which is talked to through hiredis. -/

namespace ProgrammableCaching

open UnorderedMap Runs

/-! ## The libraries -/

/-- `rocksdb::Status`. -/
inductive RocksDbStatus
  | ok
  | notFound
  | ioError
  deriving DecidableEq, Repr

/-- The calls made on a `rocksdb::DB`. A new iterator is given as the keys it visits from the
first one on and the status it ends with. -/
class RocksDb (δ : Type) where
  get : δ → (key value : String) → RocksDbStatus × String
  put : δ → (key value : String) → RocksDbStatus × δ
  delete : δ → (key : String) → RocksDbStatus × δ
  newIterator : δ → List String × RocksDbStatus

/-- A database that never fails is the map `contents`. -/
class LawfulRocksDb (δ : Type) [RocksDb δ] where
  contents : δ → UMap String String
  get_hit (db : δ) (key value v : String) (h : (contents db).lookup key = some v) :
    RocksDb.get db key value = (.ok, v)
  get_miss (db : δ) (key value : String) (h : (contents db).lookup key = none) :
    RocksDb.get db key value = (.notFound, value)
  put_ok (db : δ) (key value : String) : (RocksDb.put db key value).1 = .ok
  contents_put (db : δ) (key value : String) :
    contents (RocksDb.put db key value).2 = (contents db).insert key value
  delete_ok (db : δ) (key : String) : (RocksDb.delete db key).1 = .ok
  contents_delete (db : δ) (key : String) :
    contents (RocksDb.delete db key).2 = (contents db).erase key
  newIterator_spec (db : δ) : Enumerates (RocksDb.newIterator db).1 (contents db) ∧
    (RocksDb.newIterator db).2 = .ok

/-- `redisReply`, by its type. -/
inductive RedisReply
  | status (str : String)
  | error (str : String)
  | string (str : String)
  | integer (integer : Int)
  | nil
  | array (element : List String)
  deriving DecidableEq, Repr

/-- `rr->element[i]->str` for `i < rr->elements`. -/
def RedisReply.element : RedisReply → List String
  | .array element => element
  | .status _ | .error _ | .string _ | .integer _ | .nil => []

/-- `redisCommand` on the words of a command, the `%s` arguments put in. -/
class RedisServer (ρ : Type) where
  redisCommand : ρ → (argv : List String) → RedisReply × ρ

/-- A server that never fails is the map `contents`. -/
class LawfulRedisServer (ρ : Type) [RedisServer ρ] where
  contents : ρ → UMap String String
  get_reply (context : ρ) (key : String) :
    (RedisServer.redisCommand context ["GET", key]).1 =
      ((contents context).lookup key).elim .nil .string
  contents_get (context : ρ) (key : String) :
    contents (RedisServer.redisCommand context ["GET", key]).2 = contents context
  contents_set (context : ρ) (key value : String) :
    contents (RedisServer.redisCommand context ["SET", key, value]).2 =
      (contents context).insert key value
  contents_del (context : ρ) (key : String) :
    contents (RedisServer.redisCommand context ["DEL", key]).2 = (contents context).erase key
  keys_reply (context : ρ) : ∃ order, Enumerates order (contents context) ∧
    (RedisServer.redisCommand context ["KEYS", "*"]).1 = .array order
  contents_keys (context : ρ) :
    contents (RedisServer.redisCommand context ["KEYS", "*"]).2 = contents context

def nul : Char := Char.ofNat 0

/-- A `std::string` as a C string: it ends at the first NUL. -/
def cStr (s : String) : String := String.ofList (Fields.first nul s.toList)

def NulFree (s : String) : Prop := nul ∉ s.toList

instance (s : String) : Decidable (NulFree s) := inferInstanceAs (Decidable (nul ∉ s.toList))

theorem NulFree.cStr_eq {s : String} (h : NulFree s) : cStr s = s := by
  rw [cStr, Fields.first_of_notMem h, String.ofList_toList]

/-! ## The interfaces -/

structure RocksDbStorageInterface (δ : Type) where
  db : δ

/-- The status of a call on the database; an error is logged. -/
def RocksDbStatus.toStorageStatus (s : RocksDbStatus) : StorageStatus :=
  if s = .ok then .ok else .genericError

instance {δ : Type} [RocksDb δ] : StorageInterface (RocksDbStorageInterface δ) where
  get i key value :=
    let (s, value) := RocksDb.get i.db key value
    (s.toStorageStatus, value, i)
  put i key value :=
    let (s, db) := RocksDb.put i.db key value
    (s.toStorageStatus, { db })
  remove i key :=
    let (s, db) := RocksDb.delete i.db key
    (s.toStorageStatus, { db })
  getAllKeys i keys :=
    let (visited, s) := RocksDb.newIterator i.db
    (s.toStorageStatus, keys ++ visited, i)
  getStorageType _ := .managed
  getStorageName _ := .ephemeral

structure RedisInterface (ρ : Type) where
  context : ρ

instance {ρ : Type} [RedisServer ρ] : StorageInterface (RedisInterface ρ) where
  get i key value :=
    -- the reply is freed, and neither its type nor its string is looked at
    let (_reply, context) := RedisServer.redisCommand i.context ["GET", cStr key]
    (.ok, value, { context })
  put i key value :=
    let (_reply, context) := RedisServer.redisCommand i.context ["SET", cStr key, cStr value]
    (.ok, { context })
  remove i key :=
    let (_reply, context) := RedisServer.redisCommand i.context ["DEL", cStr key]
    (.ok, { context })
  getAllKeys i keys :=
    let (rr, context) := RedisServer.redisCommand i.context ["KEYS", "*"]
    (.ok, keys ++ rr.element.map cStr, { context })
  getStorageType _ := .managed
  getStorageName _ := .ephemeral

/-- Over a database that never fails the interface keeps what its class promises. -/
instance {δ : Type} [RocksDb δ] [LawfulRocksDb δ] :
    LawfulStorage (RocksDbStorageInterface δ) where
  contents i := LawfulRocksDb.contents i.db
  get_hit i key value v h := by
    simp [StorageInterface.get, LawfulRocksDb.get_hit i.db key value v h,
      RocksDbStatus.toStorageStatus]
  get_miss i key value h := by
    simp [StorageInterface.get, LawfulRocksDb.get_miss i.db key value h,
      RocksDbStatus.toStorageStatus]
  contents_get i key value := rfl
  put_ok i key value := by
    simp [StorageInterface.put, LawfulRocksDb.put_ok, RocksDbStatus.toStorageStatus]
  contents_put i key value := LawfulRocksDb.contents_put i.db key value
  remove_ok i key := by
    simp [StorageInterface.remove, LawfulRocksDb.delete_ok, RocksDbStatus.toStorageStatus]
  contents_remove i key := LawfulRocksDb.contents_delete i.db key
  getAllKeys_spec i keys := by
    have h := LawfulRocksDb.newIterator_spec i.db
    exact ⟨by simp [StorageInterface.getAllKeys, h.2, RocksDbStatus.toStorageStatus],
      _, h.1, rfl⟩
  contents_getAllKeys i keys := rfl

/-! ## Sequences of calls -/

inductive StorageCall
  | get (key : String)
  | put (key value : String)
  | remove (key : String)
  | getAllKeys
  deriving DecidableEq, Repr

/-- What a call returns: its status, and what it has written to a fresh output variable. -/
structure StorageAnswer where
  status : StorageStatus
  value : String := ""
  keys : List String := []
  deriving DecidableEq, Repr

/-- The same answer, but for the order of the keys. -/
structure StorageAnswer.Same (a b : StorageAnswer) : Prop where
  status : a.status = b.status
  value : a.value = b.value
  keys : ∀ key, key ∈ a.keys ↔ key ∈ b.keys

namespace StorageCall

def NulFree : StorageCall → Prop
  | .get key | .remove key => ProgrammableCaching.NulFree key
  | .put key value => ProgrammableCaching.NulFree key ∧ ProgrammableCaching.NulFree value
  | .getAllKeys => True

instance : (call : StorageCall) → Decidable call.NulFree
  | .get key | .remove key => inferInstanceAs (Decidable (ProgrammableCaching.NulFree key))
  | .put key value => inferInstanceAs
      (Decidable (ProgrammableCaching.NulFree key ∧ ProgrammableCaching.NulFree value))
  | .getAllKeys => inferInstanceAs (Decidable True)

/-- The value that the call leaves under the key, when it changes it. -/
def effect (key : String) : StorageCall → Option (Option String)
  | .put key' value => if key' = key then some (some value) else none
  | .remove key' => if key' = key then some none else none
  | .get _ | .getAllKeys => none

variable {σ : Type} [StorageInterface σ]

def exec (i : σ) : StorageCall → StorageAnswer × σ
  | .get key =>
      let (status, value, i) := StorageInterface.get i key ""
      ({ status, value }, i)
  | .put key value =>
      let (status, i) := StorageInterface.put i key value
      ({ status }, i)
  | .remove key =>
      let (status, i) := StorageInterface.remove i key
      ({ status }, i)
  | .getAllKeys =>
      let (status, keys, i) := StorageInterface.getAllKeys i []
      ({ status, keys }, i)

/-- The interface after the calls. -/
def run (i : σ) (calls : List StorageCall) : σ := calls.foldl (fun i call => (exec i call).2) i

/-- What the call returns after the calls `before`. -/
def answer (i : σ) (before : List StorageCall) (call : StorageCall) : StorageAnswer :=
  (exec (run i before) call).1

/-- What the last `Put` or `Remove` of the key has left under it. -/
def stored (key : String) (calls : List StorageCall) : Option String :=
  LastWriter.after (effect key) none calls

/-- A `Get` finds what is stored under its key, and an absent key is an error. -/
def GetRight (i : σ) (before : List StorageCall) (call : StorageCall) : Prop :=
  ∀ key, call = .get key →
    match stored key before with
    | some value => (answer i before call).status = .ok ∧ (answer i before call).value = value
    | none => (answer i before call).status = .genericError

theorem run_snoc (i : σ) (calls : List StorageCall) (call : StorageCall) :
    run i (calls ++ [call]) = (exec (run i calls) call).2 := by
  simp [run]

theorem stored_snoc (key : String) (calls : List StorageCall) (call : StorageCall) :
    stored key (calls ++ [call]) = (call.effect key).getD (stored key calls) := by
  simp [stored]

/-- Calls that change the contents as they say leave what was stored last. -/
theorem lookup_run {c : σ → UMap String String} {i : σ} {calls : List StorageCall}
    (hempty : c i = ∅)
    (hstep : ∀ i call key, call.NulFree →
      (c (exec i call).2).lookup key = (call.effect key).getD ((c i).lookup key))
    (hnul : ∀ call ∈ calls, call.NulFree) (key : String) :
    (c (run i calls)).lookup key = stored key calls := by
  induction calls using List.reverseRecOn with
  | nil => simp [run, stored, hempty]
  | append_singleton calls call ih =>
      rw [run_snoc, hstep _ _ _ (hnul call (by simp)), stored_snoc,
        ih fun call' hc => hnul call' (List.mem_append_left _ hc)]

/-- Only keys without NUL bytes are stored. -/
theorem nulFree_of_stored {calls : List StorageCall} (hnul : ∀ call ∈ calls, call.NulFree)
    {key value : String} (h : stored key calls = some value) :
    ProgrammableCaching.NulFree key := by
  obtain ⟨call, hc, heffect⟩ : ∃ call ∈ calls, call.effect key ≠ none := by
    by_contra hnone
    push Not at hnone
    rw [stored, LastWriter.after_of_none hnone] at h
    cases h
  cases call with
  | put key' value' =>
      obtain rfl : key' = key := by
        by_contra hne
        exact heffect (if_neg hne)
      exact (hnul _ hc).1
  | remove key' =>
      obtain rfl : key' = key := by
        by_contra hne
        exact heffect (if_neg hne)
      exact hnul _ hc
  | get key' => exact absurd rfl heffect
  | getAllKeys => exact absurd rfl heffect

/-! ## The two interfaces -/

section Lawful

variable [LawfulStorage σ] {i : σ} {before : List StorageCall}

theorem lookup_lawful (hempty : LawfulStorage.contents i = ∅)
    (hnul : ∀ call ∈ before, call.NulFree) (key : String) :
    (LawfulStorage.contents (run i before)).lookup key = stored key before := by
  refine lookup_run (c := LawfulStorage.contents) hempty ?_ hnul key
  intro i call key _
  cases call with
  | get key' => simp [exec, effect]
  | put key' value =>
      by_cases heq : key = key'
      · simp [exec, effect, heq]
      · simp [exec, effect, heq, Ne.symm heq]
  | remove key' =>
      by_cases heq : key = key'
      · simp [exec, effect, heq]
      · simp [exec, effect, heq, Ne.symm heq]
  | getAllKeys => simp [exec, effect]

/-- A medium that keeps its promise answers every `Get` right. -/
theorem getRight_lawful (hempty : LawfulStorage.contents i = ∅)
    (hnul : ∀ call ∈ before, call.NulFree) (call : StorageCall) : GetRight i before call := by
  rintro key rfl
  have hlookup := lookup_lawful hempty hnul key
  cases hstored : stored key before with
  | none => exact (LawfulStorage.get_miss _ _ _ (hlookup.trans hstored)).1
  | some value => exact LawfulStorage.get_hit _ _ _ _ (hlookup.trans hstored)

theorem mem_keys_lawful (hempty : LawfulStorage.contents i = ∅)
    (hnul : ∀ call ∈ before, call.NulFree) (key : String) :
    key ∈ (answer i before .getAllKeys).keys ↔ (stored key before).isSome := by
  obtain ⟨_, order, horder, hkeys⟩ := LawfulStorage.getAllKeys_spec (run i before) []
  have hanswer : (answer i before .getAllKeys).keys = order := hkeys
  rw [hanswer, horder.2, mem_iff_isSome, lookup_lawful hempty hnul]

end Lawful

section Redis

variable {ρ : Type} [RedisServer ρ] [LawfulRedisServer ρ] {i : RedisInterface ρ}
  {before : List StorageCall}

theorem lookup_redis (hempty : LawfulRedisServer.contents i.context = ∅)
    (hnul : ∀ call ∈ before, call.NulFree) (key : String) :
    (LawfulRedisServer.contents (run i before).context).lookup key = stored key before := by
  refine lookup_run (c := fun i : RedisInterface ρ => LawfulRedisServer.contents i.context)
    hempty ?_ hnul key
  intro i call key hcall
  cases call with
  | get key' =>
      simp [exec, effect, StorageInterface.get, LawfulRedisServer.contents_get]
  | put key' value =>
      by_cases heq : key = key'
      · simp [exec, effect, StorageInterface.put, LawfulRedisServer.contents_set, heq,
          hcall.1.cStr_eq, hcall.2.cStr_eq]
      · simp [exec, effect, StorageInterface.put, LawfulRedisServer.contents_set, heq,
          hcall.1.cStr_eq, hcall.2.cStr_eq, Ne.symm heq]
  | remove key' =>
      have hkey : cStr key' = key' := ProgrammableCaching.NulFree.cStr_eq hcall
      by_cases heq : key = key'
      · simp [exec, effect, StorageInterface.remove, LawfulRedisServer.contents_del, hkey, heq]
      · simp [exec, effect, StorageInterface.remove, LawfulRedisServer.contents_del, hkey, heq,
          Ne.symm heq]
  | getAllKeys =>
      simp [exec, effect, StorageInterface.getAllKeys, LawfulRedisServer.contents_keys]

/-- The reply that `Get` frees unread holds what is stored. -/
theorem reply_get (hempty : LawfulRedisServer.contents i.context = ∅)
    (hnul : ∀ call ∈ before, call.NulFree) {key : String}
    (hkey : ProgrammableCaching.NulFree key) :
    (RedisServer.redisCommand (run i before).context ["GET", cStr key]).1 =
      (stored key before).elim .nil .string := by
  rw [hkey.cStr_eq, LawfulRedisServer.get_reply, lookup_redis hempty hnul]

/-- The keys of the server are listed as they are. -/
theorem mem_keys_redis (hempty : LawfulRedisServer.contents i.context = ∅)
    (hnul : ∀ call ∈ before, call.NulFree) (key : String) :
    key ∈ (answer i before .getAllKeys).keys ↔ (stored key before).isSome := by
  have hlookup := lookup_redis hempty hnul
  obtain ⟨order, horder, hreply⟩ := LawfulRedisServer.keys_reply (run i before).context
  have hkeys : (answer i before .getAllKeys).keys = order.map cStr := by
    simp [answer, exec, StorageInterface.getAllKeys, hreply, RedisReply.element]
  have hsame : order.map cStr = order := by
    refine (List.map_congr_left fun key hkey => ?_).trans (List.map_id order)
    obtain ⟨value, hvalue⟩ := Finmap.mem_iff.mp ((horder.2 key).mp hkey)
    rw [hlookup] at hvalue
    exact (nulFree_of_stored hnul hvalue).cStr_eq
  rw [hkeys, hsame, horder.2, mem_iff_isSome, hlookup]

end Redis

/-! ## When they agree -/

section Both

variable {δ ρ : Type} [RocksDb δ] [LawfulRocksDb δ] [RedisServer ρ] [LawfulRedisServer ρ]
  {i : RocksDbStorageInterface δ} {r : RedisInterface ρ} {before calls : List StorageCall}

/-- The interfaces give the same answer to the call, and a right one to a `Get`. -/
structure Agree (i : RocksDbStorageInterface δ) (r : RedisInterface ρ)
    (before : List StorageCall) (call : StorageCall) : Prop where
  same : (answer i before call).Same (answer r before call)
  rocksDb : GetRight i before call
  redis : GetRight r before call

theorem agree_iff (hi : LawfulRocksDb.contents i.db = ∅)
    (hr : LawfulRedisServer.contents r.context = ∅) (hnul : ∀ call ∈ before, call.NulFree)
    (call : StorageCall) :
    Agree i r before call ↔ ∀ key, call = .get key → stored key before = some "" := by
  have hright : GetRight i before call := getRight_lawful hi hnul call
  cases call with
  | get key =>
      have hredis : answer r before (.get key) = { status := .ok } := rfl
      simp only [StorageCall.get.injEq, forall_eq']
      constructor
      · rintro ⟨_, _, hget⟩
        have hget' := hget key rfl
        rw [hredis] at hget'
        cases hstored : stored key before with
        | none => rw [hstored] at hget'; cases hget'
        | some value =>
            rw [hstored] at hget'
            rw [← hget'.2]
      · intro hstored
        have hrocks := hright key rfl
        rw [hstored] at hrocks
        refine ⟨⟨hrocks.1, hrocks.2, fun _ => Iff.rfl⟩, hright, ?_⟩
        rintro key' hkey
        cases hkey
        rw [hstored]
        exact ⟨rfl, rfl⟩
  | put key value =>
      refine iff_of_true ⟨⟨?_, rfl, fun _ => Iff.rfl⟩, hright, fun _ h => nomatch h⟩ fun _ h =>
        nomatch h
      exact LawfulStorage.put_ok (run i before) key value
  | remove key =>
      refine iff_of_true ⟨⟨?_, rfl, fun _ => Iff.rfl⟩, hright, fun _ h => nomatch h⟩ fun _ h =>
        nomatch h
      exact LawfulStorage.remove_ok (run i before) key
  | getAllKeys =>
      refine iff_of_true ⟨⟨?_, rfl, fun key => ?_⟩, hright, fun _ h => nomatch h⟩ fun _ h =>
        nomatch h
      · exact (LawfulStorage.getAllKeys_spec (run i before) []).1
      · rw [mem_keys_lawful hi hnul, mem_keys_redis hr hnul]

/-- **When the back ends can be exchanged.** In a sequence of calls without NUL bytes, made on
empty stores, they answer every call alike and every `Get` right, if and only if each `Get` asks
for a key whose last `Put` or `Remove` was a `Put` of the empty value. -/
theorem interchangeable_iff (hi : LawfulRocksDb.contents i.db = ∅)
    (hr : LawfulRedisServer.contents r.context = ∅) (hnul : ∀ call ∈ calls, call.NulFree) :
    EveryStep (Agree i r) calls ↔
      EveryStep (fun before call => ∀ key, call = .get key → stored key before = some "")
        calls := by
  refine everyStep_congr fun before call hpre => ?_
  exact agree_iff hi hr (fun call' hc => hnul call' (hpre.subset (by simp [hc]))) call

end Both

section Example

/-- A map in memory that can stand behind both interfaces. -/
structure MemoryDb where
  db : AList (fun _ : String => String) := ∅

instance : RocksDb MemoryDb where
  get m key value :=
    match m.db.lookup key with
    | some v => (.ok, v)
    | none => (.notFound, value)
  put m key value := (.ok, { db := m.db.insert key value })
  delete m key := (.ok, { db := m.db.erase key })
  newIterator m := (m.db.keys, .ok)

instance : LawfulRocksDb MemoryDb where
  contents m := m.db.toFinmap
  get_hit m key value v h := by
    rw [Finmap.lookup_toFinmap] at h
    simp [RocksDb.get, h]
  get_miss m key value h := by
    rw [Finmap.lookup_toFinmap] at h
    simp [RocksDb.get, h]
  put_ok m key value := rfl
  contents_put m key value := by simp [RocksDb.put]
  delete_ok m key := rfl
  contents_delete m key := by simp [RocksDb.delete]
  newIterator_spec m :=
    ⟨⟨m.db.nodupKeys, fun k => by simp [RocksDb.newIterator, AList.mem_keys]⟩, rfl⟩

instance : RedisServer MemoryDb where
  redisCommand m
    | ["GET", key] => ((m.db.lookup key).elim .nil .string, m)
    | ["SET", key, value] => (.status "OK", { db := m.db.insert key value })
    | ["DEL", key] => (.integer (if key ∈ m.db then 1 else 0), { db := m.db.erase key })
    | ["KEYS", "*"] => (.array m.db.keys, m)
    | _ => (.error "ERR", m)

instance : LawfulRedisServer MemoryDb where
  contents m := m.db.toFinmap
  get_reply m key := by simp [RedisServer.redisCommand]
  contents_get m key := rfl
  contents_set m key value := by simp [RedisServer.redisCommand]
  contents_del m key := by simp [RedisServer.redisCommand]
  keys_reply m := ⟨m.db.keys, ⟨m.db.nodupKeys, fun k => by simp [AList.mem_keys]⟩, rfl⟩
  contents_keys m := rfl

def rocksDb : RocksDbStorageInterface MemoryDb := { db := {} }

def redis : RedisInterface MemoryDb := { context := {} }

theorem interchangeable_iff_emptyValue :
    EveryStep (Agree rocksDb redis) [.put "k" "", .get "k", .getAllKeys] ↔
      EveryStep (fun before call => ∀ key, call = .get key → stored key before = some "")
        [.put "k" "", .get "k", .getAllKeys] :=
  interchangeable_iff rfl rfl (by decide)

/-- The redis interface drops the value that the server returns. -/
theorem redis_get_drops_value :
    answer rocksDb [.put "k" "v"] (.get "k") = { status := .ok, value := "v" } ∧
      answer redis [.put "k" "v"] (.get "k") = { status := .ok } ∧
      answer redis [] (.get "k") = { status := .ok } ∧
      ¬ EveryStep (Agree rocksDb redis) [.put "k" "v", .get "k"] := by
  refine ⟨rfl, rfl, rfl, fun h => ?_⟩
  have hvalue := (h [.put "k" "v"] (.get "k") (List.prefix_refl _)).same.value
  exact absurd hvalue (by decide)

end Example

end StorageCall

end ProgrammableCaching
