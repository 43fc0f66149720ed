import Mathlib.Data.Finmap

/-! Finite maps with the operations of a hash table: lookup, overwriting
insertion, erasure, access that creates a missing entry, and traversal in an
order the table does not promise. -/

namespace UnorderedMap

variable {κ α : Type*} [DecidableEq κ]

abbrev UMap (κ α : Type*) := Finmap (fun _ : κ => α)

/-- `m[k]` read as a reference: a missing entry is the default `d`. -/
def entry (m : UMap κ α) (k : κ) (d : α) : α := (m.lookup k).getD d

/-- `f(m[k])`: change the entry under `k`, which starts as `d` when missing. -/
def modify (m : UMap κ α) (k : κ) (d : α) (f : α → α) : UMap κ α :=
  m.insert k (f (entry m k d))

/-- `order` lists the keys of `m`, each once: one order in which a traversal
may visit the table. -/
def Enumerates (order : List κ) (m : UMap κ α) : Prop :=
  order.Nodup ∧ ∀ k, k ∈ order ↔ k ∈ m

theorem enumerates_iff {order : List κ} {m : UMap κ α} :
    Enumerates order m ↔ order.Nodup ∧ order.toFinset = m.keys := by
  simp [Enumerates, Finset.ext_iff, Finmap.mem_keys]

instance (order : List κ) (m : UMap κ α) : Decidable (Enumerates order m) :=
  decidable_of_iff _ enumerates_iff.symm

/-- The entries of `m` in the order given. -/
def traverse (order : List κ) (m : UMap κ α) : List (κ × α) :=
  order.filterMap fun k => (m.lookup k).map fun a => (k, a)

@[simp] theorem lookup_insert_ite (m : UMap κ α) (k k' : κ) (a : α) :
    (m.insert k a).lookup k' = if k' = k then some a else m.lookup k' := by
  by_cases h : k' = k
  · subst h; simp [Finmap.lookup_insert]
  · simp [h, Finmap.lookup_insert_of_ne]

@[simp] theorem lookup_erase_ite (m : UMap κ α) (k k' : κ) :
    (m.erase k).lookup k' = if k' = k then none else m.lookup k' := by
  by_cases h : k' = k
  · subst h; simp [Finmap.lookup_erase]
  · simp [h, Finmap.lookup_erase_ne]

@[simp] theorem lookup_modify (m : UMap κ α) (k k' : κ) (d : α) (f : α → α) :
    (modify m k d f).lookup k' = if k' = k then some (f (entry m k d)) else m.lookup k' := by
  simp [modify]

@[simp] theorem mem_modify (m : UMap κ α) (k k' : κ) (d : α) (f : α → α) :
    k' ∈ modify m k d f ↔ k' = k ∨ k' ∈ m := by
  simp [modify]

theorem mem_iff_isSome (m : UMap κ α) (k : κ) : k ∈ m ↔ (m.lookup k).isSome := by
  rw [Finmap.lookup_isSome]

theorem mem_of_lookup {m : UMap κ α} {k : κ} {a : α} (h : m.lookup k = some a) : k ∈ m := by
  rw [mem_iff_isSome, h]; rfl

theorem entry_of_lookup {m : UMap κ α} {k : κ} {a : α} (d : α) (h : m.lookup k = some a) :
    entry m k d = a := by
  simp [entry, h]

theorem lookup_of_mem {m : UMap κ α} {k : κ} (d : α) (h : k ∈ m) :
    m.lookup k = some (entry m k d) := by
  obtain ⟨a, ha⟩ := Finmap.mem_iff.mp h
  rw [ha, entry_of_lookup d ha]

/-- Tables with the same keys and the same entries are the same. -/
theorem ext_entry {m m' : UMap κ α} (d : α) (hmem : ∀ k, k ∈ m ↔ k ∈ m')
    (hentry : ∀ k, entry m k d = entry m' k d) : m = m' := by
  refine Finmap.ext_lookup fun k => ?_
  by_cases hk : k ∈ m
  · rw [lookup_of_mem d hk, lookup_of_mem d ((hmem k).mp hk), hentry]
  · rw [Finmap.lookup_eq_none.mpr hk, Finmap.lookup_eq_none.mpr (mt (hmem k).mpr hk)]

theorem entry_insert (m : UMap κ α) (k k' : κ) (a d : α) :
    entry (m.insert k a) k' d = if k' = k then a else entry m k' d := by
  by_cases h : k' = k <;> simp [entry, h]

theorem entry_modify (m : UMap κ α) (k k' : κ) (d : α) (f : α → α) :
    entry (modify m k d f) k' d = if k' = k then f (entry m k d) else entry m k' d :=
  entry_insert m k k' _ d

/-- Changes of two entries may change places. -/
theorem modify_comm {k k' : κ} (h : k ≠ k') (m : UMap κ α) (d d' : α) (f f' : α → α) :
    modify (modify m k d f) k' d' f' = modify (modify m k' d' f') k d f := by
  refine Finmap.ext_lookup fun x => ?_
  by_cases hx : x = k
  · subst hx
    simp [entry, h]
  · by_cases hx' : x = k'
    · subst hx'
      simp [entry, hx]
    · simp [hx, hx']

/-- Two changes of one entry are one change. -/
theorem modify_modify (m : UMap κ α) (k : κ) (d : α) (f f' : α → α) :
    modify (modify m k d f) k d f' = modify m k d fun a => f' (f a) := by
  refine Finmap.ext_lookup fun x => ?_
  by_cases hx : x = k
  · simp [entry, hx]
  · simp [hx]

omit [DecidableEq κ] in
theorem enumerates_keys (m : UMap κ α) : Enumerates m.keys.toList m :=
  ⟨m.keys.nodup_toList, fun _ => Finset.mem_toList.trans Finmap.mem_keys⟩

/-- Any key may be visited last. -/
theorem Enumerates.visit_last {order : List κ} {m : UMap κ α} (h : Enumerates order m) {k : κ}
    (hk : k ∈ m) : Enumerates (order.erase k ++ [k]) m := by
  constructor
  · rw [← List.concat_eq_append]
    exact (h.1.erase k).concat h.1.not_mem_erase
  · intro k'
    rw [List.mem_append, List.mem_singleton, h.1.mem_erase_iff, h.2]
    by_cases heq : k' = k
    · simp [heq, hk]
    · simp [heq]

theorem traverse_concat {m : UMap κ α} {k : κ} {a : α} (h : m.lookup k = some a) (order : List κ) :
    traverse (order ++ [k]) m = traverse order m ++ [(k, a)] := by
  simp [traverse, h]

theorem mem_traverse {order : List κ} {m : UMap κ α} (h : Enumerates order m) (k : κ) (a : α) :
    (k, a) ∈ traverse order m ↔ m.lookup k = some a := by
  simp only [traverse, List.mem_filterMap, Option.map_eq_some_iff, Prod.mk.injEq]
  constructor
  · rintro ⟨k', _, a', ha, rfl, rfl⟩
    exact ha
  · intro ha
    exact ⟨k, (h.2 k).mpr (mem_of_lookup ha), a, ha, rfl, rfl⟩

/-- A traversal visits each key of the table exactly once. -/
theorem keys_traverse {order : List κ} {m : UMap κ α} (h : Enumerates order m) :
    (traverse order m).map Prod.fst = order := by
  have hall : ∀ l : List κ, (∀ k ∈ l, k ∈ m) → (traverse l m).map Prod.fst = l := by
    intro l
    induction l with
    | nil => intro _; rfl
    | cons k l ih =>
        intro hl
        obtain ⟨a, ha⟩ := Finmap.mem_iff.mp (hl k (by simp))
        have ht := ih fun k' hk' => hl k' (by simp [hk'])
        simpa [traverse, ha] using ht
  exact hall order fun k hk => (h.2 k).mp hk

end UnorderedMap
