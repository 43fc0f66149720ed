import Mathlib.Order.Basic
import ProgrammableCaching.Library.Pools

/-! Conditions on the calls of programs. A contract says what may be assumed of the answer of a
call and what has to be known when it is made; what is known only grows, whoever takes the next
step. Programs that meet a contract can be run as threads, however they take turns. -/

namespace Contracts

open Runs Pools

/-- What a call requires and what its answer ensures, for each state of knowledge `W`, and the
failures that code may come to. -/
structure Contract (C : Type → Type) (ε : Type) (W : Type*) where
  requires : {β : Type} → C β → W → Prop
  ensures : {β : Type} → C β → β → W → Prop
  excuses : ε → Prop

variable {C : Type → Type} {ε α β σ : Type} {W : Type*} [Preorder W] {K : Contract C ε W}
  {Q : α → W → Prop} {R : β → W → Prop} {p : Prog C ε α} {w w' : W}

/-- From what is known in `w` on, the code makes its calls only when they are allowed and comes to
a result with `Q`. -/
def Meets (K : Contract C ε W) (Q : α → W → Prop) : Prog C ε α → W → Prop
  | .done a, w => ∀ w', w ≤ w' → Q a w'
  | .fail e, _ => K.excuses e
  | .call c k, w => ∀ w', w ≤ w' → K.requires c w' ∧
      ∀ b w'', w' ≤ w'' → K.ensures c b w'' → Meets K Q (k b) w''

/-! ## Rules -/

/-- More may be known. -/
theorem Meets.mono (h : Meets K Q p w) (hle : w ≤ w') : Meets K Q p w' := by
  cases p with
  | done a => exact fun w'' hle' => h w'' (hle.trans hle')
  | fail e => exact h
  | call c k => exact fun w'' hle' => h w'' (hle.trans hle')

/-- Less may be said of the result. -/
theorem Meets.imp {Q' : α → W → Prop} (h : Meets K Q p w) (hQ : ∀ a w', Q a w' → Q' a w') :
    Meets K Q' p w := by
  induction p generalizing w with
  | done a => exact fun w' hle => hQ a w' (h w' hle)
  | fail e => exact h
  | call c k ih =>
      intro w' hle
      obtain ⟨hrequires, hrest⟩ := h w' hle
      exact ⟨hrequires, fun b w'' hle' hensures => ih b (hrest b w'' hle' hensures)⟩

/-- One piece of code after the other. -/
theorem Meets.bind {f : α → Prog C ε β} (h : Meets K Q p w)
    (hf : ∀ a w', w ≤ w' → Q a w' → Meets K R (f a) w') : Meets K R (p >>= f) w := by
  induction p generalizing w with
  | done a => exact hf a w le_rfl (h w le_rfl)
  | fail e => exact h
  | call c k ih =>
      intro w' hle
      obtain ⟨hrequires, hrest⟩ := h w' hle
      exact ⟨hrequires, fun b w'' hle' hensures => ih b (hrest b w'' hle' hensures)
        fun a w₃ hle₃ => hf a w₃ ((hle.trans hle').trans hle₃)⟩

theorem meets_pure {a : α} (h : ∀ w', w ≤ w' → Q a w') :
    Meets K Q (pure a : Prog C ε α) w := h

theorem meets_throw {e : ε} (h : K.excuses e) : Meets K Q (throw e : Prog C ε α) w := h

theorem meets_perform {c : C α} (hrequires : ∀ w', w ≤ w' → K.requires c w')
    (hensures : ∀ a w', w ≤ w' → K.ensures c a w' → ∀ w'', w' ≤ w'' → Q a w'') :
    Meets K Q (Prog.perform c : Prog C ε α) w :=
  fun w' hle => ⟨hrequires w' hle, fun a w'' hle' he => hensures a w'' (hle.trans hle') he⟩

/-- What is known before a loop, and kept by its body, is known behind it. -/
theorem meets_forM {γ : Type} {l : List γ} {f : γ → Prog C ε PUnit}
    (h : ∀ x ∈ l, ∀ w', w ≤ w' → Meets K (fun _ _ => True) (f x) w') :
    Meets K (fun _ _ => True) (forM l f) w := by
  induction l generalizing w with
  | nil => exact fun _ _ => trivial
  | cons x l ih =>
      rw [List.forM_cons]
      refine (h x (by simp) w le_rfl).bind fun _ w' hle _ => ih fun y hy w'' hle' => ?_
      exact h y (by simp [hy]) w'' (hle.trans hle')

/-- What the body of a loop says of an element and of what it makes of it. -/
theorem meets_mapM_forall₂ {γ δ : Type} {S : γ → δ → W → Prop} {l : List γ}
    {f : γ → Prog C ε δ} (hmono : ∀ x y w w', w ≤ w' → S x y w → S x y w')
    (h : ∀ x ∈ l, ∀ w', w ≤ w' → Meets K (S x) (f x) w') :
    Meets K (fun ys w => List.Forall₂ (fun x y => S x y w) l ys) (l.mapM f) w := by
  induction l generalizing w with
  | nil => exact fun _ _ => .nil
  | cons x l ih =>
      rw [List.mapM_cons]
      refine (h x (by simp) w le_rfl).bind fun y w' hle hy => ?_
      have hrest : ∀ z ∈ l, ∀ w'', w' ≤ w'' → Meets K (S z) (f z) w'' :=
        fun z hz w'' hle' => h z (by simp [hz]) w'' (hle.trans hle')
      refine (ih hrest).bind fun ys w₂ hle₂ hys w₃ hle₃ => ?_
      exact .cons (hmono _ _ _ _ (hle₂.trans hle₃) hy)
        (hys.imp fun _ _ => hmono _ _ _ _ hle₃)

theorem meets_mapM {γ δ : Type} {l : List γ} {f : γ → Prog C ε δ}
    (h : ∀ x ∈ l, ∀ w', w ≤ w' → Meets K (fun _ _ => True) (f x) w') :
    Meets K (fun _ _ => True) (l.mapM f) w :=
  (meets_mapM_forall₂ (fun _ _ _ _ _ h => h) h).imp fun _ _ _ => trivial

/-- What the body of a loop keeps of its accumulator. -/
theorem meets_foldlM {γ : Type} {l : List γ} {f : α → γ → Prog C ε α} {a : α}
    (hmono : ∀ a w w', Q a w → w ≤ w' → Q a w')
    (h : ∀ x ∈ l, ∀ a w', w ≤ w' → Q a w' → Meets K Q (f a x) w') (ha : Q a w) :
    Meets K Q (l.foldlM f a) w := by
  induction l generalizing a w with
  | nil => exact fun w' hle => hmono a w w' ha hle
  | cons x l ih =>
      rw [List.foldlM_cons]
      refine (h x (by simp) a w le_rfl ha).bind fun a' w' hle ha' => ih ?_ ha'
      exact fun y hy b w'' hle' hb => h y (by simp [hy]) b w'' (hle.trans hle') hb

/-! ## Threads that meet a contract -/

/-- The thread makes its next call and goes on with the answer; `serve` says how a call may be
answered, what it does and what is seen of it. -/
def CallStep {L : Type*} (serve : ∀ {β : Type}, C β → σ → L → β → σ → Prop) (s : σ)
    (p : Prog C ε α) (l : L) (s' : σ) (p' : Prog C ε α) : Prop :=
  ∃ (β : Type) (c : C β) (k : β → Prog C ε α) (b : β),
    p = .call c k ∧ serve c s l b s' ∧ p' = k b

variable {L : Type*} {serve : ∀ {β : Type}, C β → σ → L → β → σ → Prop}
  {starts : Prog C ε α → Prop} {I : List (Event (Prog C ε α) L) → σ → Prop} {s : σ}
  {es : List (Event (Prog C ε α) L)} {P : Pool σ (Prog C ε α)}

/-- **Threads keep their contracts.** Every thread has a contract `K p` for the code `p` that it is
started with, and knows things of its own. When every new thread meets its contract, and every call
that is allowed keeps the invariant, ensures what it should and takes no knowledge away, the
invariant holds after every run, and all threads meet their contracts from there on. -/
theorem meets_own_of_reaches {K : Prog C ε α → Contract C ε W}
    (known : ℕ → List (Event (Prog C ε α) L) → σ → W) (h0 : I [] s)
    (hspawn : ∀ es s p, I es s → starts p → (∀ j, known j es s ≤ known j (es ++ [.spawn p]) s) ∧
      I (es ++ [.spawn p]) s ∧ Meets (K p) Q p (known (spawned es).length (es ++ [.spawn p]) s))
    (hserve : ∀ es i p s s' l (β : Type) (c : C β) (b : β), I es s → (spawned es)[i]? = some p →
      (K p).requires c (known i es s) → serve c s l b s' →
        (∀ j, known j es s ≤ known j (es ++ [.step i l]) s') ∧ I (es ++ [.step i l]) s' ∧
          (K p).ensures c b (known i (es ++ [.step i l]) s'))
    (hrun : Reaches (PoolStep starts (CallStep serve)) ⟨s, []⟩ es P) :
    I es P.state ∧ ∀ (i : ℕ) (p : Prog C ε α), P.threads[i]? = some p →
      ∃ p₀, (spawned es)[i]? = some p₀ ∧ Meets (K p₀) Q p (known i es P.state) := by
  induction hrun with
  | nil => exact ⟨h0, fun i p hi => by simp at hi⟩
  | snoc hrun hstep ih =>
      obtain ⟨hI, hthreads⟩ := ih
      have hlength := length_spawned hrun
      cases hstep with
      | spawn hp =>
          obtain ⟨hle, hI', hmeets⟩ := hspawn _ _ _ hI hp
          refine ⟨hI', fun i q hi => ?_⟩
          rcases getElem?_append_cases hi with ⟨rfl, rfl⟩ | hi
          · exact ⟨q, by simp [spawned, ← hlength], hlength ▸ hmeets⟩
          · obtain ⟨p₀, hp₀, hmeets₀⟩ := hthreads i q hi
            have hlt := (List.getElem?_eq_some_iff.mp hp₀).1
            refine ⟨p₀, ?_, hmeets₀.mono (hle i)⟩
            rwa [spawned_append, List.getElem?_append_left hlt]
      | step hi hcall =>
          obtain ⟨β, c, k, b, rfl, hanswer, rfl⟩ := hcall
          obtain ⟨p₀, hp₀, hmeets₀⟩ := hthreads _ _ hi
          obtain ⟨hrequires, hrest⟩ := hmeets₀ _ le_rfl
          obtain ⟨hle, hI', hensures⟩ := hserve _ _ _ _ _ _ _ _ _ hI hp₀ hrequires hanswer
          refine ⟨hI', fun j q hj => ?_⟩
          rcases getElem?_set_cases hi hj with ⟨rfl, rfl⟩ | ⟨_, hj⟩
          · exact ⟨p₀, by simpa [spawned] using hp₀, hrest _ _ (hle _) hensures⟩
          · obtain ⟨q₀, hq₀, hmeets⟩ := hthreads j q hj
            exact ⟨q₀, by simpa [spawned] using hq₀, hmeets.mono (hle j)⟩

/-- Threads with one contract, and with all knowledge in common. -/
theorem meets_of_reaches {known : List (Event (Prog C ε α) L) → σ → W} (h0 : I [] s)
    (hspawn : ∀ es s p, I es s → starts p → known es s ≤ known (es ++ [.spawn p]) s ∧
      I (es ++ [.spawn p]) s ∧ Meets K Q p (known (es ++ [.spawn p]) s))
    (hserve : ∀ es i s s' l (β : Type) (c : C β) (b : β), I es s → K.requires c (known es s) →
      serve c s l b s' → known es s ≤ known (es ++ [.step i l]) s' ∧
        I (es ++ [.step i l]) s' ∧ K.ensures c b (known (es ++ [.step i l]) s'))
    (hrun : Reaches (PoolStep starts (CallStep serve)) ⟨s, []⟩ es P) :
    I es P.state ∧
      ∀ (i : ℕ) (p : Prog C ε α), P.threads[i]? = some p → Meets K Q p (known es P.state) := by
  obtain ⟨hI, hthreads⟩ := meets_own_of_reaches (K := fun _ => K) (fun _ => known) h0
    (fun es s p hI hp => (hspawn es s p hI hp).imp_left fun hle _ => hle)
    (fun es i p s s' l β c b hI _ hrequires hanswer =>
      (hserve es i s s' l β c b hI hrequires hanswer).imp_left fun hle _ => hle) hrun
  refine ⟨hI, fun i p hi => ?_⟩
  obtain ⟨p₀, _, hmeets⟩ := hthreads i p hi
  exact hmeets

end Contracts
