import Mathlib.Data.List.Induction
import Mathlib.Data.List.Infix
import Mathlib.Tactic.Common

/-! Runs of a labelled transition system, as the events in the order they
happened, and facts about every state and every step of a run. -/

namespace Runs

variable {σ ε : Type*}

/-- The events `es` lead from `s` to the last argument. -/
inductive Reaches (step : σ → ε → σ → Prop) (s : σ) : List ε → σ → Prop
  | nil : Reaches step s [] s
  | snoc {es : List ε} {e : ε} {t u : σ} :
      Reaches step s es t → step t e u → Reaches step s (es ++ [e]) u

/-- An event leads from a state to at most one state. -/
def Deterministic (step : σ → ε → σ → Prop) : Prop :=
  ∀ t e u u', step t e u → step t e u' → u = u'

variable {step : σ → ε → σ → Prop} {s t u : σ} {es es' : List ε} {e : ε}

/-- What holds at the start and is kept by every step holds along the run. -/
theorem Reaches.invariant {I : σ → Prop} (h : Reaches step s es t) (h0 : I s)
    (hstep : ∀ t e u, I t → step t e u → I u) : I t := by
  induction h with
  | nil => exact h0
  | snoc _ he ih => exact hstep _ _ _ ih he

theorem Reaches.nil_iff : Reaches step s [] t ↔ t = s := by
  constructor
  · intro h
    generalize hl : ([] : List ε) = l at h
    cases h with
    | nil => rfl
    | snoc => simp at hl
  · rintro rfl
    exact .nil

theorem Reaches.snoc_iff :
    Reaches step s (es ++ [e]) u ↔ ∃ t, Reaches step s es t ∧ step t e u := by
  constructor
  · intro h
    generalize hl : es ++ [e] = l at h
    cases h with
    | nil => simp at hl
    | snoc hr he =>
        obtain ⟨rfl, hse⟩ := List.append_inj' hl rfl
        cases hse
        exact ⟨_, hr, he⟩
  · rintro ⟨t, hr, he⟩
    exact .snoc hr he

/-- A run goes through the end of each of its prefixes. -/
theorem Reaches.prefix (h : Reaches step s (es ++ es') u) :
    ∃ t, Reaches step s es t ∧ Reaches step t es' u := by
  induction es' using List.reverseRecOn generalizing u with
  | nil => exact ⟨u, by simpa using h, .nil⟩
  | append_singleton es' e ih =>
      rw [← List.append_assoc, Reaches.snoc_iff] at h
      obtain ⟨t, hr, he⟩ := h
      obtain ⟨t', h1, h2⟩ := ih hr
      exact ⟨t', h1, h2.snoc he⟩

theorem Reaches.cons (he : step s e t) (h : Reaches step t es u) : Reaches step s (e :: es) u := by
  induction h with
  | nil => exact .snoc .nil he
  | snoc _ he' ih => exact .snoc ih he'

theorem Reaches.cons_iff :
    Reaches step s (e :: es) u ↔ ∃ t, step s e t ∧ Reaches step t es u := by
  constructor
  · intro h
    rw [← List.singleton_append] at h
    obtain ⟨t, hfirst, hrest⟩ := h.prefix
    rw [← List.nil_append [e]] at hfirst
    obtain ⟨t', hnil, he⟩ := Reaches.snoc_iff.mp hfirst
    rw [Reaches.nil_iff.mp hnil] at he
    exact ⟨t, he, hrest⟩
  · rintro ⟨t, he, hrest⟩
    exact .cons he hrest

theorem Reaches.functional (hdet : Deterministic step) (h : Reaches step s es t)
    (h' : Reaches step s es u) : t = u := by
  induction h generalizing u with
  | nil => exact (Reaches.nil_iff.mp h').symm
  | snoc _ he ih =>
      obtain ⟨t', hr', he'⟩ := Reaches.snoc_iff.mp h'
      obtain rfl := ih hr'
      exact hdet _ _ _ _ he he'

/-- Every event of a run is a step of it. -/
theorem Reaches.step_of_mem (h : Reaches step s es t) (he : e ∈ es) : ∃ u v, step u e v := by
  induction h with
  | nil => cases he
  | snoc _ hstep ih =>
      rcases List.mem_append.mp he with he | he
      · exact ih he
      · cases List.mem_singleton.mp he
        exact ⟨_, _, hstep⟩

theorem Reaches.append (h : Reaches step s es t) (h' : Reaches step t es' u) :
    Reaches step s (es ++ es') u := by
  induction h' with
  | nil => simpa using h
  | snoc _ he ih =>
      rw [← List.append_assoc]
      exact ih.snoc he

theorem Reaches.mono {step' : σ → ε → σ → Prop} (h : Reaches step s es t)
    (hstep : ∀ t e u, step t e u → step' t e u) : Reaches step' s es t := by
  induction h with
  | nil => exact .nil
  | snoc _ he ih => exact ih.snoc (hstep _ _ _ he)

/-! ## Every state and every step of a run -/

/-- `P` holds of every initial part of the run. -/
def Throughout (P : List ε → Prop) (es : List ε) : Prop := ∀ es', es' <+: es → P es'

/-- Every event of the run is good after the events before it. -/
def EveryStep (good : List ε → ε → Prop) (es : List ε) : Prop :=
  ∀ es' e, es' ++ [e] <+: es → good es' e

variable {P ok : List ε → Prop} {good : List ε → ε → Prop}

@[simp] theorem throughout_nil : Throughout P [] ↔ P [] := by
  simp [Throughout]

@[simp] theorem throughout_snoc : Throughout P (es ++ [e]) ↔ Throughout P es ∧ P (es ++ [e]) := by
  constructor
  · exact fun h => ⟨fun es' hpre => h es' (hpre.trans (List.prefix_append _ _)),
      h _ (List.prefix_refl _)⟩
  · rintro ⟨h, hlast⟩ es' hpre
    rcases List.prefix_concat_iff.mp hpre with rfl | hpre'
    · exact hlast
    · exact h es' hpre'

theorem Throughout.self (h : Throughout P es) : P es := h es (List.prefix_refl _)

@[simp] theorem everyStep_nil : EveryStep good ([] : List ε) := by
  intro es' e hpre
  simp at hpre

@[simp] theorem everyStep_snoc :
    EveryStep good (es ++ [e]) ↔ EveryStep good es ∧ good es e := by
  constructor
  · exact fun h => ⟨fun es' e' hpre => h es' e' (hpre.trans (List.prefix_append _ _)),
      h es e (List.prefix_refl _)⟩
  · rintro ⟨h, hlast⟩ es' e' hpre
    rcases List.prefix_concat_iff.mp hpre with heq | hpre'
    · obtain ⟨rfl, he⟩ := List.append_inj' heq rfl
      cases he
      exact hlast
    · exact h es' e' hpre'

theorem everyStep_cons :
    EveryStep good (e :: es) ↔ good [] e ∧ EveryStep (fun es' => good (e :: es')) es := by
  induction es using List.reverseRecOn with
  | nil =>
      have h : EveryStep good ([] ++ [e]) ↔ EveryStep good [] ∧ good [] e := everyStep_snoc
      simpa using h
  | append_singleton es e' ih =>
      rw [← List.cons_append, everyStep_snoc, everyStep_snoc, ih, and_assoc]

theorem everyStep_congr {good' : List ε → ε → Prop}
    (h : ∀ es' e, es' ++ [e] <+: es → (good es' e ↔ good' es' e)) :
    EveryStep good es ↔ EveryStep good' es :=
  forall_congr' fun es' => forall_congr' fun e => forall_congr' fun hpre => h es' e hpre

/-- Some event of the run is met by `P` after the events before it. -/
def SomeStep (P : List ε → ε → Prop) (es : List ε) : Prop :=
  ∃ es' e, es' ++ [e] <+: es ∧ P es' e

@[simp] theorem not_someStep_nil {P : List ε → ε → Prop} : ¬ SomeStep P [] := by
  rintro ⟨es', e, hpre, _⟩
  simp at hpre

@[simp] theorem someStep_snoc {P : List ε → ε → Prop} :
    SomeStep P (es ++ [e]) ↔ SomeStep P es ∨ P es e := by
  constructor
  · rintro ⟨es', e', hpre, hP⟩
    rcases List.prefix_concat_iff.mp hpre with heq | hpre'
    · obtain ⟨rfl, he⟩ := List.append_inj' heq rfl
      cases he
      exact .inr hP
    · exact .inl ⟨es', e', hpre', hP⟩
  · rintro (⟨es', e', hpre, hP⟩ | hP)
    · exact ⟨es', e', hpre.trans (List.prefix_append _ _), hP⟩
    · exact ⟨es, e, List.prefix_refl _, hP⟩

theorem Reaches.throughout (h : Reaches step s es t) :
    Throughout (fun es' => ∃ u, Reaches step s es' u) es := by
  rintro es' ⟨es'', rfl⟩
  obtain ⟨u, hu, _⟩ := h.prefix
  exact ⟨u, hu⟩

/-- **When each step keeps `P` exactly if it is good, a run keeps `P` throughout
exactly if all its steps are good.** -/
theorem throughout_iff_everyStep (h0 : P [])
    (hstep : ∀ es e, ok (es ++ [e]) → P es → (P (es ++ [e]) ↔ good es e))
    (hok : Throughout ok es) : Throughout P es ↔ EveryStep good es := by
  induction es using List.reverseRecOn with
  | nil => simp [h0]
  | append_singleton es e ih =>
      obtain ⟨hoks, hoke⟩ := throughout_snoc.mp hok
      rw [throughout_snoc, everyStep_snoc, ← ih hoks]
      exact and_congr_right fun hP => hstep es e hoke hP.self

end Runs
