import Mathlib.Data.List.TakeWhile
import Mathlib.Tactic.Common

/-! Texts whose fields are joined by a separator. A first field without the
separator can be told apart from the rest. -/

namespace Fields

variable {α : Type*} [DecidableEq α] {sep : α} {field field' rest rest' text : List α}

/-- The text up to the first separator. -/
def first (sep : α) (text : List α) : List α := text.takeWhile (· ≠ sep)

/-- The text behind the first separator. -/
def behind (sep : α) (text : List α) : List α := (text.dropWhile (· ≠ sep)).tail

theorem sep_notMem_first : sep ∉ first sep text := fun h => by
  simpa using List.mem_takeWhile_imp h

theorem first_of_notMem (h : sep ∉ text) : first sep text = text :=
  List.takeWhile_eq_self_iff.mpr fun _ ha => decide_eq_true fun heq => h (heq ▸ ha)

@[simp] theorem first_join (h : sep ∉ field) : first sep (field ++ sep :: rest) = field := by
  have hall : ∀ a ∈ field, (decide (a ≠ sep)) = true := fun a ha =>
    decide_eq_true fun heq => h (heq ▸ ha)
  rw [first, List.takeWhile_append_of_pos hall]
  simp

@[simp] theorem behind_join (h : sep ∉ field) : behind sep (field ++ sep :: rest) = rest := by
  have hall : ∀ a ∈ field, (decide (a ≠ sep)) = true := fun a ha =>
    decide_eq_true fun heq => h (heq ▸ ha)
  rw [behind, List.dropWhile_append_of_pos hall]
  simp

/-- A text with a separator is its first field and the rest. -/
theorem join_first_behind (h : sep ∈ text) :
    first sep text ++ sep :: behind sep text = text := by
  induction text with
  | nil => simp at h
  | cons a text ih =>
      by_cases ha : a = sep
      · simp [first, behind, ha]
      · have hmem : sep ∈ text := (List.mem_cons.mp h).resolve_left (Ne.symm ha)
        simpa [first, behind, ha] using ih hmem

/-- Joined texts with separator-free first fields agree field by field. -/
theorem join_inj (h : sep ∉ field) (h' : sep ∉ field') :
    field ++ sep :: rest = field' ++ sep :: rest' ↔ field = field' ∧ rest = rest' := by
  constructor
  · intro heq
    have hfirst := congrArg (first sep) heq
    have hbehind := congrArg (behind sep) heq
    rw [first_join h, first_join h'] at hfirst
    rw [behind_join h, behind_join h'] at hbehind
    exact ⟨hfirst, hbehind⟩
  · rintro ⟨rfl, rfl⟩
    rfl

omit [DecidableEq α] in
/-- Joined texts with separator-free last fields agree field by field. -/
theorem join_inj_last (h : sep ∉ rest) (h' : sep ∉ rest') :
    field ++ sep :: rest = field' ++ sep :: rest' ↔ field = field' ∧ rest = rest' := by
  classical
  have hreverse : ∀ field rest : List α,
      (field ++ sep :: rest).reverse = rest.reverse ++ sep :: field.reverse := by simp
  rw [← List.reverse_inj, hreverse, hreverse, join_inj (by simpa using h) (by simpa using h'),
    List.reverse_inj, List.reverse_inj, and_comm]

end Fields
