import Mathlib.Data.List.Basic
import Mathlib.Data.Set.Function
import Mathlib.Tactic.Common

/-! Values kept under keys at several addresses, changed by putting, removing
and copying between addresses. A copy whose source holds nothing writes a blank
value. Addresses, keys and values are arbitrary types. -/

namespace Replicas

variable {A K V : Type*}

/-- What every address holds under every key. -/
abbrev Stores (A K V : Type*) := A → K → Option V

inductive Op (A K V : Type*)
  | put (a : A) (k : K) (v : V)
  | remove (a : A) (k : K)
  /-- `dest` takes over what `source` holds. -/
  | copy (dest source : A) (k : K)
  deriving DecidableEq, Repr

namespace Op

/-- The address and the key whose entry the operation writes. -/
def cell : Op A K V → A × K
  | put a k _ => (a, k)
  | remove a k => (a, k)
  | copy dest _ k => (dest, k)

def IsPut : Op A K V → Prop
  | put _ _ _ => True
  | _ => False

/-- A copy finds its key at the source. -/
def Fed (st : Stores A K V) : Op A K V → Prop
  | copy _ source k => (st source k).isSome
  | _ => True

instance (st : Stores A K V) : (op : Op A K V) → Decidable (op.Fed st)
  | .copy _ source k => inferInstanceAs (Decidable ((st source k).isSome = true))
  | .put _ _ _ | .remove _ _ => .isTrue trivial

end Op

/-- Addresses holding a key hold the same value under it. -/
def Coherent (st : Stores A K V) : Prop :=
  ∀ a b k v w, st a k = some v → st b k = some w → v = w

/-- No key of `st'` has a value it does not have in `st`. -/
def DrawnFrom (st st' : Stores A K V) : Prop :=
  ∀ a k v, st' a k = some v → ∃ b, st b k = some v

/-- Some address holds `v` under `k`, and no address holds anything else. -/
def CommonValue (st : Stores A K V) (k : K) (v : V) : Prop :=
  (∃ a, st a k = some v) ∧ ∀ b w, st b k = some w → w = v

theorem Coherent.commonValue {st : Stores A K V} (hc : Coherent st) {a : A} {k : K} {v : V}
    (h : st a k = some v) : CommonValue st k v :=
  ⟨⟨a, h⟩, fun b w hw => hc b a k w v hw h⟩

theorem DrawnFrom.refl (st : Stores A K V) : DrawnFrom st st := fun a _ _ h => ⟨a, h⟩

theorem DrawnFrom.trans {st₁ st₂ st₃ : Stores A K V} (h : DrawnFrom st₁ st₂)
    (h' : DrawnFrom st₂ st₃) : DrawnFrom st₁ st₃ := by
  intro a k v hv
  obtain ⟨b, hb⟩ := h' a k v hv
  exact h b k v hb

theorem Coherent.of_drawnFrom {st st' : Stores A K V} (hc : Coherent st) (h : DrawnFrom st st') :
    Coherent st' := by
  intro a b k v w hv hw
  obtain ⟨a', ha⟩ := h a k v hv
  obtain ⟨b', hb⟩ := h b k w hw
  exact hc a' b' k v w ha hb

variable [DecidableEq A] [DecidableEq K]

def set (st : Stores A K V) (a : A) (k : K) (o : Option V) : Stores A K V :=
  fun a' k' => if a' = a ∧ k' = k then o else st a' k'

@[simp] theorem set_self (st : Stores A K V) (a : A) (k : K) (o : Option V) :
    set st a k o a k = o := by
  simp [set]

theorem set_of_ne (st : Stores A K V) {a a' : A} {k k' : K} (o : Option V)
    (h : (a, k) ≠ (a', k')) : set st a k o a' k' = st a' k' := by
  have h' : ¬ (a' = a ∧ k' = k) := fun ⟨ha, hk⟩ => h (by rw [ha, hk])
  simp [set, h']

def apply (blank : V) (st : Stores A K V) : Op A K V → Stores A K V
  | .put a k v => set st a k (some v)
  | .remove a k => set st a k none
  | .copy dest source k => set st dest k (some ((st source k).getD blank))

def run (blank : V) (st : Stores A K V) (ops : List (Op A K V)) : Stores A K V :=
  ops.foldl (apply blank) st

/-- Every copy of the list finds its key when its turn comes. -/
def AllFed (blank : V) : Stores A K V → List (Op A K V) → Prop
  | _, [] => True
  | st, op :: ops => op.Fed st ∧ AllFed blank (apply blank st op) ops

def decidableAllFed (blank : V) :
    (st : Stores A K V) → (ops : List (Op A K V)) → Decidable (AllFed blank st ops)
  | _, [] => .isTrue trivial
  | st, op :: ops =>
      have := decidableAllFed blank (apply blank st op) ops
      inferInstanceAs (Decidable (op.Fed st ∧ AllFed blank (apply blank st op) ops))

instance (blank : V) (st : Stores A K V) (ops : List (Op A K V)) :
    Decidable (AllFed blank st ops) := decidableAllFed blank st ops

variable {blank : V} {st : Stores A K V}

@[simp] theorem run_nil : run blank st [] = st := rfl

@[simp] theorem run_cons (op : Op A K V) (ops : List (Op A K V)) :
    run blank st (op :: ops) = run blank (apply blank st op) ops := rfl

theorem run_append (ops ops' : List (Op A K V)) :
    run blank st (ops ++ ops') = run blank (run blank st ops) ops' := by
  simp [run, List.foldl_append]

/-- An operation leaves every entry but its own alone. -/
theorem apply_of_ne (op : Op A K V) {a : A} {k : K} (h : op.cell ≠ (a, k)) :
    apply blank st op a k = st a k := by
  cases op <;> exact set_of_ne _ _ h

theorem run_of_untouched (ops : List (Op A K V)) {a : A} {k : K}
    (h : ∀ op ∈ ops, op.cell ≠ (a, k)) : run blank st ops a k = st a k := by
  induction ops generalizing st with
  | nil => rfl
  | cons op ops ih =>
      rw [run_cons, ih fun o ho => h o (by simp [ho])]
      exact apply_of_ne op (h op (by simp))

/-! ## Coherence -/

/-- A removal, or a copy that finds its key, makes up no value. -/
theorem apply_drawnFrom (op : Op A K V) (hp : ¬ op.IsPut) (hf : op.Fed st) :
    DrawnFrom st (apply blank st op) := by
  intro a k v hv
  by_cases hcell : op.cell = (a, k)
  · cases op with
    | put => exact absurd trivial hp
    | remove a' k' =>
        obtain ⟨rfl, rfl⟩ := Prod.mk.inj hcell
        simp [apply] at hv
    | copy dest source k' =>
        obtain ⟨rfl, rfl⟩ := Prod.mk.inj hcell
        obtain ⟨x, hx⟩ := Option.isSome_iff_exists.mp hf
        refine ⟨source, ?_⟩
        simpa [apply, hx] using hv
  · rw [apply_of_ne op hcell] at hv
    exact ⟨a, hv⟩

theorem run_drawnFrom (ops : List (Op A K V)) (hp : ∀ op ∈ ops, ¬ op.IsPut)
    (hf : AllFed blank st ops) : DrawnFrom st (run blank st ops) := by
  induction ops generalizing st with
  | nil => exact DrawnFrom.refl st
  | cons op ops ih =>
      have hstep : DrawnFrom st (apply blank st op) := apply_drawnFrom op (hp op (by simp)) hf.1
      exact hstep.trans (ih (fun o ho => hp o (by simp [ho])) hf.2)

/-- **Executing removals and copies that find their keys keeps the replicas
coherent.** -/
theorem run_coherent (ops : List (Op A K V)) (hp : ∀ op ∈ ops, ¬ op.IsPut)
    (hf : AllFed blank st ops) (hc : Coherent st) : Coherent (run blank st ops) :=
  hc.of_drawnFrom (run_drawnFrom ops hp hf)

/-! ## Renaming addresses -/

section Rename

variable {B : Type*} [DecidableEq B]

def Op.map (f : B → A) : Op B K V → Op A K V
  | .put b k v => .put (f b) k v
  | .remove b k => .remove (f b) k
  | .copy dest source k => .copy (f dest) (f source) k

/-- The addresses of an operation. -/
def Op.addresses : Op A K V → List A
  | .put a _ _ => [a]
  | .remove a _ => [a]
  | .copy dest source _ => [dest, source]

variable {f : B → A} {S : Set B}

omit [DecidableEq A] [DecidableEq K] [DecidableEq B] in
theorem Op.fed_map (st : Stores A K V) (op : Op B K V) :
    (op.map f).Fed st ↔ op.Fed fun b k => st (f b) k := by
  cases op <;> rfl

theorem set_rename (hinj : Set.InjOn f S) {b c : B} (hb : b ∈ S) (hc : c ∈ S)
    (st : Stores A K V) (k k' : K) (o : Option V) :
    set st (f b) k o (f c) k' = set (fun b k => st (f b) k) b k o c k' := by
  simp only [set, hinj.eq_iff hc hb]

/-- Where different addresses keep different names, an operation does under
the names what it does under the addresses. -/
theorem apply_rename (hinj : Set.InjOn f S) (op : Op B K V) (hop : ∀ b ∈ op.addresses, b ∈ S)
    (st : Stores A K V) {c : B} (hc : c ∈ S) (k : K) :
    apply blank st (op.map f) (f c) k = apply blank (fun b k => st (f b) k) op c k := by
  cases op with
  | put b k' v => exact set_rename hinj (hop b (by simp [Op.addresses])) hc st k' k _
  | remove b k' => exact set_rename hinj (hop b (by simp [Op.addresses])) hc st k' k _
  | copy dest source k' =>
      exact set_rename hinj (hop dest (by simp [Op.addresses])) hc st k' k _

omit [DecidableEq A] in
/-- Stores that agree at the addresses in `S` still do after operations on these
addresses. -/
theorem run_congr (ops : List (Op B K V)) (hops : ∀ op ∈ ops, ∀ b ∈ op.addresses, b ∈ S)
    {st st' : Stores B K V} (h : ∀ b ∈ S, ∀ k, st b k = st' b k) {c : B} (hc : c ∈ S) (k : K) :
    run blank st ops c k = run blank st' ops c k := by
  induction ops generalizing st st' with
  | nil => exact h c hc k
  | cons op ops ih =>
      rw [run_cons, run_cons]
      refine ih (fun o ho => hops o (by simp [ho])) fun b hb k' => ?_
      have hop := hops op (by simp)
      cases op with
      | put a k v => simp only [apply, set, h b hb]
      | remove a k => simp only [apply, set, h b hb]
      | copy dest source k =>
          simp only [apply, set, h b hb, h source (hop source (by simp [Op.addresses]))]

theorem run_rename (hinj : Set.InjOn f S) (ops : List (Op B K V))
    (hops : ∀ op ∈ ops, ∀ b ∈ op.addresses, b ∈ S) (st : Stores A K V) {c : B} (hc : c ∈ S)
    (k : K) :
    run blank st (ops.map (Op.map f)) (f c) k = run blank (fun b k => st (f b) k) ops c k := by
  induction ops generalizing st with
  | nil => rfl
  | cons op ops ih =>
      have hrest : ∀ o ∈ ops, ∀ b ∈ o.addresses, b ∈ S := fun o ho => hops o (by simp [ho])
      rw [List.map_cons, run_cons, ih hrest, run_cons]
      exact run_congr ops hrest
        (fun b hb k' => apply_rename hinj op (hops op (by simp)) st hb k') hc k

omit [DecidableEq A] in
theorem allFed_congr (ops : List (Op B K V)) (hops : ∀ op ∈ ops, ∀ b ∈ op.addresses, b ∈ S)
    {st st' : Stores B K V} (h : ∀ b ∈ S, ∀ k, st b k = st' b k) :
    AllFed blank st ops ↔ AllFed blank st' ops := by
  induction ops generalizing st st' with
  | nil => rfl
  | cons op ops ih =>
      have hop := hops op (by simp)
      refine and_congr ?_ (ih (fun o ho => hops o (by simp [ho])) fun b hb k => ?_)
      · cases op with
        | put a k v => rfl
        | remove a k => rfl
        | copy dest source k =>
            simp only [Op.Fed, h source (hop source (by simp [Op.addresses]))]
      · exact run_congr [op] (by simpa using hop) h hb k

theorem allFed_rename (hinj : Set.InjOn f S) (ops : List (Op B K V))
    (hops : ∀ op ∈ ops, ∀ b ∈ op.addresses, b ∈ S) (st : Stores A K V) :
    AllFed blank st (ops.map (Op.map f)) ↔ AllFed blank (fun b k => st (f b) k) ops := by
  induction ops generalizing st with
  | nil => rfl
  | cons op ops ih =>
      have hrest : ∀ o ∈ ops, ∀ b ∈ o.addresses, b ∈ S := fun o ho => hops o (by simp [ho])
      refine and_congr (Op.fed_map st op) ((ih hrest _).trans ?_)
      exact allFed_congr ops hrest
        fun b hb k => apply_rename hinj op (hops op (by simp)) st hb k

end Rename

end Replicas
