import ProgrammableCaching.Library.Contracts

/-! Two systems whose states differ but whose answers do not. Programs that call them cannot tell one
from the other, however they take turns. -/

namespace Lockstep

open Runs Pools Contracts

variable {C : Type → Type} {ε α β σ τ : Type} {R : σ → τ → Prop} {s s' : σ} {t : τ} {a : α}

/-- The same answer with related states, or the same failure. -/
inductive SameAnswer (R : σ → τ → Prop) : Except ε (α × σ) → Except ε (α × τ) → Prop
  | ok {a : α} {s : σ} {t : τ} : R s t → SameAnswer R (.ok (a, s)) (.ok (a, t))
  | error (e : ε) : SameAnswer R (.error e) (.error e)

theorem SameAnswer.exists_right {y : Except ε (α × τ)} (h : SameAnswer R (.ok (a, s)) y) :
    ∃ t, y = .ok (a, t) ∧ R s t := by
  cases h with
  | ok hR => exact ⟨_, rfl, hR⟩

/-! ## Runs and pools -/

/-- When each step of one system can be followed by the related step of the other, so can each
run. -/
theorem reaches_of_related {σ τ E F : Type*} {step₁ : σ → E → σ → Prop} {step₂ : τ → F → τ → Prop}
    {R : σ → τ → Prop} {S : E → F → Prop} {es : List E} {fs : List F} {s s' : σ} {t : τ}
    (h : ∀ s t e f s', R s t → S e f → step₁ s e s' → ∃ t', step₂ t f t' ∧ R s' t')
    (hes : List.Forall₂ S es fs) (hR : R s t) (hrun : Reaches step₁ s es s') :
    ∃ t', Reaches step₂ t fs t' ∧ R s' t' := by
  induction hes generalizing s t with
  | nil =>
      obtain rfl := Reaches.nil_iff.mp hrun
      exact ⟨t, .nil, hR⟩
  | cons hef _ ih =>
      obtain ⟨u, hfirst, hrest⟩ := Reaches.cons_iff.mp hrun
      obtain ⟨u', hfirst', hR'⟩ := h _ _ _ _ _ hR hef hfirst
      obtain ⟨t', hrest', hR''⟩ := ih hR' hrest
      exact ⟨t', .cons hfirst' hrest', hR''⟩

variable {L P : Type*} {starts : P → Prop} {tstep₁ : σ → P → L → σ → P → Prop}
  {tstep₂ : τ → P → L → τ → P → Prop}

/-- The threads of two pools stay the same as long as each of their steps is possible in both. -/
theorem poolStep_of_related
    (h : ∀ s t p l s' p', R s t → tstep₁ s p l s' p' → ∃ t', tstep₂ t p l t' p' ∧ R s' t')
    {ts : List P} {e : Event P L} {A : Pool σ P} (hR : R s t)
    (hstep : PoolStep starts tstep₁ ⟨s, ts⟩ e A) :
    ∃ t', PoolStep starts tstep₂ ⟨t, ts⟩ e ⟨t', A.threads⟩ ∧ R A.state t' := by
  cases hstep with
  | spawn hp => exact ⟨t, .spawn hp, hR⟩
  | step hi hone =>
      obtain ⟨t', hone', hR'⟩ := h _ _ _ _ _ _ hR hone
      exact ⟨t', .step hi hone', hR'⟩

variable {serve₁ : ∀ {β : Type}, C β → σ → L → β → σ → Prop}
  {serve₂ : ∀ {β : Type}, C β → τ → L → β → τ → Prop}

theorem callStep_of_related
    (h : ∀ {β : Type} (c : C β) s t l b s', R s t → serve₁ c s l b s' →
      ∃ t', serve₂ c t l b t' ∧ R s' t')
    {p p' : Prog C ε α} {l : L} (hR : R s t) (hstep : CallStep serve₁ s p l s' p') :
    ∃ t', CallStep serve₂ t p l t' p' ∧ R s' t' := by
  obtain ⟨β, c, k, b, rfl, hserve, rfl⟩ := hstep
  obtain ⟨t', hserve', hR'⟩ := h c s t l b s' hR hserve
  exact ⟨t', ⟨β, c, k, b, rfl, hserve', rfl⟩, hR'⟩

end Lockstep
