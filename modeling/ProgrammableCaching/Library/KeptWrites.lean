import Mathlib.Tactic.Common

/-! Code over a state that may throw and then keeps what it has written, next to code whose writes
are lost when it throws. -/

namespace KeptWrites

variable {ε σ α β γ : Type}

/-- Code that may throw. What it has written before stays. -/
abbrev Code (ε σ : Type) : Type → Type := ExceptT ε (StateM σ)

theorem run_bind (x : Code ε σ α) (f : α → Code ε σ β) (s : σ) :
    (x >>= f).run.run s = match x.run.run s with
      | (.ok a, s') => (f a).run.run s'
      | (.error e, s') => (.error e, s') := by
  change (do
    let r ← x.run
    ExceptT.bindCont f r : StateM σ _).run s = _
  cases h : x.run.run s with
  | mk r s' =>
      rw [StateT.run_bind, h]
      cases r <;> rfl

/-! ## Code that either comes to its end or does nothing -/

/-- What the code makes of the state, if it does not throw. -/
def commit (x : Code ε σ Unit) (s : σ) : Except ε σ :=
  (x.run.run s).1.map fun _ => (x.run.run s).2

theorem commit_bind (x y : Code ε σ Unit) (s : σ) :
    commit (x >>= fun _ => y) s = commit x s >>= commit y := by
  unfold commit
  rw [run_bind]
  cases h : x.run.run s with
  | mk r s' => cases r <;> rfl

theorem commit_forM (f : γ → Code ε σ Unit) (l : List γ) (s : σ) :
    commit (forM l f) s = l.foldlM (fun s a => commit (f a) s) s := by
  induction l generalizing s with
  | nil => rfl
  | cons a l ih =>
      rw [List.forM_cons, List.foldlM_cons, commit_bind]
      exact congrArg (commit (f a) s >>= ·) (funext ih)

/-! ## Invariants -/

/-- What held before the code holds behind it, also when it throws. -/
def Preserves (I : σ → Prop) (x : Code ε σ α) : Prop := ∀ s, I s → I (x.run.run s).2

variable {I : σ → Prop} {x : Code ε σ α} {f : α → Code ε σ β}

theorem preserves_pure (a : α) : Preserves I (pure a : Code ε σ α) := fun _ h => h

theorem preserves_throw (e : ε) : Preserves I (throw e : Code ε σ α) := fun _ h => h

theorem preserves_modifyGet {g : σ → α × σ} (h : ∀ s, I s → I (g s).2) :
    Preserves I (modifyGet g : Code ε σ α) := h

theorem preserves_modify {g : σ → σ} (h : ∀ s, I s → I (g s)) :
    Preserves I (modify g : Code ε σ PUnit) := h

theorem Preserves.bind (hx : Preserves I x) (hf : ∀ a, Preserves I (f a)) :
    Preserves I (x >>= f) := by
  intro s hs
  have hx' := hx s hs
  rw [run_bind]
  cases h : x.run.run s with
  | mk r s' =>
      rw [h] at hx'
      cases r with
      | ok a => exact hf a s' hx'
      | error e => exact hx'

theorem preserves_forM {l : List γ} {f : γ → Code ε σ PUnit}
    (h : ∀ a ∈ l, Preserves I (f a)) : Preserves I (forM l f) := by
  induction l with
  | nil => exact preserves_pure _
  | cons a l ih =>
      rw [List.forM_cons]
      exact (h a (by simp)).bind fun _ => ih fun b hb => h b (by simp [hb])

/-- An invariant of the code is one of what it commits. -/
theorem Preserves.commit {x : Code ε σ Unit} (h : Preserves I x) {s s' : σ} (hs : I s)
    (hok : commit x s = .ok s') : I s' := by
  unfold KeptWrites.commit at hok
  cases hr : (x.run.run s).1 with
  | error e =>
      rw [hr] at hok
      cases hok
  | ok a =>
      rw [hr] at hok
      cases hok
      exact h s hs

end KeptWrites
