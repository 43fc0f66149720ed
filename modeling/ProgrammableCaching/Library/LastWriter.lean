import Mathlib.Data.List.Induction
import Mathlib.Tactic.Common

/-! A value that some events of a history set and the others leave alone: the
last event with an effect decides. -/

namespace LastWriter

variable {ε β : Type*} {effect : ε → Option β} {l l' pre post : List ε} {e : ε} {b c : β}

/-- The value after the events `l`, when it was `b` before. -/
def after (effect : ε → Option β) (b : β) (l : List ε) : β :=
  l.foldl (fun b e => (effect e).getD b) b

@[simp] theorem after_nil : after effect b [] = b := rfl

@[simp] theorem after_cons :
    after effect b (e :: l) = after effect ((effect e).getD b) l := rfl

@[simp] theorem after_append :
    after effect b (l ++ l') = after effect (after effect b l) l' := by
  simp [after, List.foldl_append]

theorem after_of_none (h : ∀ e ∈ l, effect e = none) : after effect b l = b := by
  induction l with
  | nil => rfl
  | cons e l ih =>
      rw [after_cons, h e (by simp)]
      exact ih fun e' he' => h e' (by simp [he'])

/-- The last event with an effect decides. -/
theorem after_of_last (he : effect e = some c) (hpost : ∀ e' ∈ post, effect e' = none) :
    after effect b (pre ++ e :: post) = c := by
  rw [after_append, after_cons, he]
  exact after_of_none hpost

/-- A history with an event in `P` splits at the last such event. -/
theorem exists_last {P : ε → Prop} (h : ∃ e ∈ l, P e) :
    ∃ pre e post, l = pre ++ e :: post ∧ P e ∧ ∀ e' ∈ post, ¬ P e' := by
  induction l using List.reverseRecOn with
  | nil => simp at h
  | append_singleton l e ih =>
      by_cases he : P e
      · exact ⟨l, e, [], by simp, he, by simp⟩
      · have hl : ∃ e' ∈ l, P e' := by
          obtain ⟨e', hmem, hp⟩ := h
          rcases List.mem_append.mp hmem with hmem | hmem
          · exact ⟨e', hmem, hp⟩
          · rw [List.mem_singleton.mp hmem] at hp
            exact absurd hp he
        obtain ⟨pre, e', post, rfl, hp, hpost⟩ := ih hl
        refine ⟨pre, e', post ++ [e], by simp, hp, ?_⟩
        intro e'' hmem
        rcases List.mem_append.mp hmem with hmem | hmem
        · exact hpost e'' hmem
        · rwa [List.mem_singleton.mp hmem]

/-- The last such event is at one place only. -/
theorem last_unique {P : ε → Prop} {pre' post' : List ε} {e' : ε}
    (h : pre ++ e :: post = pre' ++ e' :: post') (he : P e) (he' : P e')
    (hpost : ∀ x ∈ post, ¬ P x) (hpost' : ∀ x ∈ post', ¬ P x) :
    pre = pre' ∧ e = e' ∧ post = post' := by
  rcases List.append_eq_append_iff.mp h with ⟨l, rfl, hl⟩ | ⟨l, rfl, hl⟩
  · cases l with
    | nil =>
        rw [List.nil_append, List.cons.injEq] at hl
        exact ⟨by simp, hl.1, hl.2⟩
    | cons x l =>
        rw [List.cons_append, List.cons.injEq] at hl
        exact absurd he' (hpost e' (by simp [hl.2]))
  · cases l with
    | nil =>
        rw [List.nil_append, List.cons.injEq] at hl
        exact ⟨by simp, hl.1.symm, hl.2.symm⟩
    | cons x l =>
        rw [List.cons_append, List.cons.injEq] at hl
        exact absurd he (hpost' e (by simp [hl.2]))

/-- Where no event has an effect the value stays, and otherwise the last one with an effect has
set it. -/
theorem after_cases (effect : ε → Option β) (b : β) (l : List ε) :
    (after effect b l = b ∧ ∀ e ∈ l, effect e = none) ∨
      ∃ pre e post, l = pre ++ e :: post ∧ effect e = some (after effect b l) ∧
        ∀ e' ∈ post, effect e' = none := by
  by_cases hall : ∀ e ∈ l, effect e = none
  · exact .inl ⟨after_of_none hall, hall⟩
  · have hex : ∃ e ∈ l, effect e ≠ none := by simpa using hall
    obtain ⟨pre, e, post, rfl, he, hpost⟩ := exists_last hex
    obtain ⟨c, hc⟩ := Option.ne_none_iff_exists'.mp he
    have hnone : ∀ e' ∈ post, effect e' = none := fun e' he' => not_not.mp (hpost e' he')
    exact .inr ⟨pre, e, post, rfl, by rw [after_of_last hc hnone, hc], hnone⟩

/-- A value that was not there before has been set by the last event with an effect. -/
theorem after_eq_iff_of_ne (hc : c ≠ b) : after effect b l = c ↔
    ∃ pre e post, l = pre ++ e :: post ∧ effect e = some c ∧ ∀ e' ∈ post, effect e' = none := by
  constructor
  · rintro rfl
    exact (after_cases effect b l).resolve_left fun hsame => hc hsame.1
  · rintro ⟨pre, e, post, rfl, he, hpost⟩
    exact after_of_last he hpost

/-- A fact holds after a history exactly when the last event with an effect
made it true, or no event had an effect and it held before. -/
theorem after_iff {effect : ε → Option Prop} {q : Prop} :
    after effect q l ↔
      (∃ pre e post p, l = pre ++ e :: post ∧ effect e = some p ∧ p ∧
        ∀ e' ∈ post, effect e' = none) ∨ (q ∧ ∀ e ∈ l, effect e = none) := by
  constructor
  · intro h
    rcases after_cases effect q l with ⟨hsame, hnone⟩ | ⟨pre, e, post, hl, he, hpost⟩
    · exact .inr ⟨hsame ▸ h, hnone⟩
    · exact .inl ⟨pre, e, post, _, hl, he, h, hpost⟩
  · rintro (⟨pre, e, post, p, rfl, he, hp, hpost⟩ | ⟨hq, hnone⟩)
    · rwa [after_of_last he hpost]
    · rwa [after_of_none hnone]

/-- A history that happens a second time changes nothing. -/
@[simp] theorem after_after : after effect (after effect b l) l = after effect b l := by
  rcases after_cases effect b l with ⟨hsame, _⟩ | ⟨pre, e, post, hl, he, hpost⟩
  · rw [hsame]
    exact hsame
  · conv_lhs => arg 3; rw [hl]
    exact after_of_last he hpost

/-- Where the events with an effect all set the same value, their order does not matter. -/
theorem after_of_agree (hmem : ∀ e, e ∈ l ↔ e ∈ l')
    (h : ∀ e ∈ l, ∀ e' ∈ l, ∀ c c', effect e = some c → effect e' = some c' → c = c') :
    after effect b l = after effect b l' := by
  rcases after_cases effect b l with ⟨hsame, hnone⟩ | ⟨pre, e, post, hl, he, _⟩
  · rw [hsame, after_of_none fun e he => hnone e ((hmem e).mpr he)]
  · rcases after_cases effect b l' with ⟨_, hnone⟩ | ⟨pre', e', post', hl', he', _⟩
    · rw [hnone e ((hmem e).mp (by simp [hl]))] at he
      cases he
    · exact h e (by simp [hl]) e' ((hmem e').mpr (by simp [hl'])) _ _ he he'

/-- Events that set what they carry when they are in `P`, in another order. -/
theorem after_ite_of_agree {P : ε → Prop} [DecidablePred P] {g : ε → β}
    (heffect : ∀ e, effect e = if P e then some (g e) else none) (hl : l.Perm l')
    (h : ∀ e ∈ l, ∀ e' ∈ l, P e → P e' → g e = g e') :
    after effect b l = after effect b l' := by
  refine after_of_agree (fun _ => hl.mem_iff) fun e he e' he' c c' hc hc' => ?_
  rw [heffect, Option.ite_none_right_eq_some, Option.some.injEq] at hc hc'
  rw [← hc.2, ← hc'.2, h e he e' he' hc.1 hc'.1]

end LastWriter
