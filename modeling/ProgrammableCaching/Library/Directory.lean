import ProgrammableCaching.Library.Replicas

/-! A directory of which address holds which key, kept next to the stores, that
takes a copy for a move: the destination is noted as holding the key and the
source as no longer holding it. -/

namespace Directory

open Replicas

variable {A K V : Type*} [DecidableEq A] [DecidableEq K]

/-- Which address is said to hold which key. -/
abbrev Listing (A K : Type*) := A → K → Prop

def mark (d : Listing A K) (a : A) (k : K) (p : Prop) : Listing A K :=
  fun a' k' => if a' = a ∧ k' = k then p else d a' k'

def note (d : Listing A K) : Op A K V → Listing A K
  | .put a k _ => mark d a k True
  | .remove a k => mark d a k False
  | .copy dest source k => mark (mark d dest k True) source k False

def noteAll (d : Listing A K) (ops : List (Op A K V)) : Listing A K := ops.foldl note d

/-- The directory is right about every key at the addresses in `S`. -/
def Matches (S : Set A) (d : Listing A K) (st : Stores A K V) : Prop :=
  ∀ a ∈ S, ∀ k, d a k ↔ (st a k).isSome

/-- The operation is about the entry: it writes it, or copies it elsewhere. -/
def Concerns (a : A) (k : K) : Op A K V → Prop
  | .put a' k' _ => a' = a ∧ k' = k
  | .remove a' k' => a' = a ∧ k' = k
  | .copy dest source k' => (dest = a ∨ source = a) ∧ k' = k

/-- Every copy is followed by a later operation about the key at its source. -/
def Settled : List (Op A K V) → Prop
  | [] => True
  | .copy _ source k :: ops => (∃ op ∈ ops, Concerns source k op) ∧ Settled ops
  | _ :: ops => Settled ops

instance (a : A) (k : K) (op : Op A K V) : Decidable (Concerns a k op) := by
  cases op <;> unfold Concerns <;> infer_instance

variable {blank : V} {d : Listing A K} {st : Stores A K V} {a : A} {k : K}

theorem mark_true_iff {a' : A} {k' : K} :
    mark d a k True a' k' ↔ (a' = a ∧ k' = k) ∨ d a' k' := by
  by_cases h : a' = a ∧ k' = k <;> simp [mark, h]

theorem mark_false_iff {a' : A} {k' : K} :
    mark d a k False a' k' ↔ ¬ (a' = a ∧ k' = k) ∧ d a' k' := by
  by_cases h : a' = a ∧ k' = k <;> simp [mark, h]

@[simp] theorem noteAll_nil : noteAll d ([] : List (Op A K V)) = d := rfl

@[simp] theorem noteAll_cons (op : Op A K V) (ops : List (Op A K V)) :
    noteAll d (op :: ops) = noteAll (note d op) ops := rfl

theorem noteAll_append (ops ops' : List (Op A K V)) :
    noteAll d (ops ++ ops') = noteAll (noteAll d ops) ops' := by
  simp [noteAll, List.foldl_append]

/-- An operation about other entries leaves both sides alone. -/
theorem note_of_not_concerns {op : Op A K V} (h : ¬ Concerns a k op) : note d op a k = d a k := by
  cases op with
  | put a' k' v =>
      have h' : ¬ (a = a' ∧ k = k') := fun ⟨x, y⟩ => h ⟨x.symm, y.symm⟩
      simp [note, mark, h']
  | remove a' k' =>
      have h' : ¬ (a = a' ∧ k = k') := fun ⟨x, y⟩ => h ⟨x.symm, y.symm⟩
      simp [note, mark, h']
  | copy dest source k' =>
      have hd : ¬ (a = dest ∧ k = k') := fun ⟨x, y⟩ => h ⟨.inl x.symm, y.symm⟩
      have hs : ¬ (a = source ∧ k = k') := fun ⟨x, y⟩ => h ⟨.inr x.symm, y.symm⟩
      simp [note, mark, hd, hs]

omit [DecidableEq A] [DecidableEq K] in
theorem cell_ne_of_not_concerns {op : Op A K V} (h : ¬ Concerns a k op) : op.cell ≠ (a, k) := by
  intro hc
  cases op with
  | put a' k' v => exact h (Prod.mk.inj hc)
  | remove a' k' => exact h (Prod.mk.inj hc)
  | copy dest source k' => exact h ⟨.inl (Prod.mk.inj hc).1, (Prod.mk.inj hc).2⟩

/-- Only a copy out of an entry lets the directory be wrong about it. -/
theorem note_matches_of_concerns {op : Op A K V} (h : Concerns a k op)
    (hcopy : ∀ dest, op ≠ .copy dest a k) : note d op a k ↔ (apply blank st op a k).isSome := by
  cases op with
  | put a' k' v => obtain ⟨rfl, rfl⟩ := h; simp [note, mark, apply]
  | remove a' k' => obtain ⟨rfl, rfl⟩ := h; simp [note, mark, apply]
  | copy dest source k' =>
      obtain ⟨rfl | rfl, rfl⟩ := h
      · have hs : ¬ dest = source := fun e => hcopy dest (by rw [e])
        simp [note, mark, apply, hs]
      · exact absurd rfl (hcopy dest)

/-- Invariant of a settled list, entry by entry: the directory is right about
the entry, or an operation about it is still to come. -/
theorem noteAll_matches_at (ops : List (Op A K V)) (hs : Settled ops)
    (h : (d a k ↔ (st a k).isSome) ∨ ∃ op ∈ ops, Concerns a k op) :
    noteAll d ops a k ↔ (run blank st ops a k).isSome := by
  induction ops generalizing d st with
  | nil =>
      rcases h with h | ⟨op, hop, _⟩
      · exact h
      · simp at hop
  | cons op ops ih =>
      have hrest : Settled ops := by
        cases op with
        | copy => exact hs.2
        | put => exact hs
        | remove => exact hs
      rw [noteAll_cons, run_cons]
      apply ih hrest
      by_cases hc : Concerns a k op
      · by_cases hcopy : ∃ dest, op = .copy dest a k
        · obtain ⟨dest, rfl⟩ := hcopy
          exact .inr hs.1
        · exact .inl (note_matches_of_concerns hc fun dest e => hcopy ⟨dest, e⟩)
      · rw [note_of_not_concerns hc, apply_of_ne op (cell_ne_of_not_concerns hc)]
        refine h.imp_right ?_
        rintro ⟨op', hop', hc'⟩
        rcases List.mem_cons.mp hop' with rfl | hmem
        · exact absurd hc' hc
        · exact ⟨op', hmem, hc'⟩

theorem noteAll_of_not_concerns (ops : List (Op A K V)) (h : ∀ op ∈ ops, ¬ Concerns a k op) :
    noteAll d ops a k = d a k := by
  induction ops generalizing d with
  | nil => rfl
  | cons op ops ih =>
      rw [noteAll_cons, ih fun o ho => h o (by simp [ho]), note_of_not_concerns (h op (by simp))]

variable {S : Set A}

/-- A copy that nothing follows up leaves the directory wrong about its source. -/
theorem not_matches_of_not_settled (ops : List (Op A K V))
    (hops : ∀ op ∈ ops, ∀ a ∈ op.addresses, a ∈ S) (hf : AllFed blank st ops)
    (hs : ¬ Settled ops) : ¬ Matches S (noteAll d ops) (run blank st ops) := by
  induction ops generalizing d st with
  | nil => exact absurd trivial hs
  | cons op ops ih =>
      rw [noteAll_cons, run_cons]
      by_cases hrest : Settled ops
      · cases op with
        | put => exact absurd hrest hs
        | remove => exact absurd hrest hs
        | copy dest source k =>
            have hnone : ∀ op ∈ ops, ¬ Concerns source k op :=
              fun op hop hc => hs ⟨⟨op, hop, hc⟩, hrest⟩
            intro hm
            have hat :=
              hm source (hops (.copy dest source k) (by simp) source (by simp [Op.addresses])) k
            rw [noteAll_of_not_concerns ops hnone,
              run_of_untouched ops fun op hop => cell_ne_of_not_concerns (hnone op hop)] at hat
            have hheld : (apply blank st (.copy dest source k) source k).isSome := by
              by_cases hself : source = dest
              · subst hself; simp [apply]
              · have hne : (Op.copy dest source k : Op A K V).cell ≠ (source, k) :=
                  fun e => hself (Prod.mk.inj e).1.symm
                rw [apply_of_ne _ hne]
                exact hf.1
            have hlisted := hat.mpr hheld
            simp [note, mark] at hlisted
      · exact ih (fun o ho => hops o (by simp [ho])) hf.2 hrest

/-- **From a right directory, a list of operations whose copies find their keys
leaves it right exactly when every copy is followed up.** -/
theorem matches_iff_settled (ops : List (Op A K V))
    (hops : ∀ op ∈ ops, ∀ a ∈ op.addresses, a ∈ S) (hf : AllFed blank st ops)
    (h : Matches S d st) : Matches S (noteAll d ops) (run blank st ops) ↔ Settled ops := by
  constructor
  · intro hm
    by_contra hs
    exact not_matches_of_not_settled ops hops hf hs hm
  · intro hs a ha k
    exact noteAll_matches_at ops hs (.inl (h a ha k))

end Directory
