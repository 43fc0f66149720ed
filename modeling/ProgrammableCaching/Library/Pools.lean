import Mathlib.Data.List.Forall2
import Mathlib.Logic.Relation
import Mathlib.Tactic.Common
import ProgrammableCaching.Library.Runs

/-! Code that makes calls one at a time, and pools of threads that take turns:
at any moment a thread may be added, or one thread takes one step. -/

namespace Pools

open Runs

/-! ## Programs -/

/-- Code that makes calls `C`, each of which answers with a value of its own
type, and that returns or fails in the end. -/
inductive Prog (C : Type → Type) (ε α : Type) : Type 1
  | done (a : α)
  | fail (e : ε)
  | call {β : Type} (c : C β) (k : β → Prog C ε α)

namespace Prog

variable {C : Type → Type} {ε α β σ : Type}

def bind (p : Prog C ε α) (f : α → Prog C ε β) : Prog C ε β :=
  match p with
  | done a => f a
  | fail e => fail e
  | call c k => call c fun b => (k b).bind f

def tryCatch (p : Prog C ε α) (handler : ε → Prog C ε α) : Prog C ε α :=
  match p with
  | done a => done a
  | fail e => handler e
  | call c k => call c fun b => (k b).tryCatch handler

instance : Monad (Prog C ε) where
  pure := done
  bind := bind

instance : MonadExceptOf ε (Prog C ε) where
  throw := fail
  tryCatch := tryCatch

/-- Make one call and return its answer. -/
def perform (c : C α) : Prog C ε α := call c done

@[simp] theorem done_bind (a : α) (f : α → Prog C ε β) : (done a >>= f : Prog C ε β) = f a := rfl

@[simp] theorem fail_bind (e : ε) (f : α → Prog C ε β) :
    ((fail e : Prog C ε α) >>= f) = fail e := rfl

@[simp] theorem call_bind {γ : Type} (c : C γ) (k : γ → Prog C ε α) (f : α → Prog C ε β) :
    (call c k >>= f : Prog C ε β) = call c fun b => k b >>= f := rfl

instance : LawfulMonad (Prog C ε) :=
  LawfulMonad.mk' (Prog C ε)
    (fun p => by
      induction p with
      | done a => rfl
      | fail e => rfl
      | call c k ih => exact congrArg (call c) (funext ih))
    (fun _ _ => rfl)
    (fun p f g => by
      induction p with
      | done a => rfl
      | fail e => rfl
      | call c k ih => exact congrArg (call c) (funext ih))

/-- Whatever its calls answer, the program makes only finitely many of them. -/
def Ends : Prog C ε α → Prop :=
  Acc fun p' p => ∃ (γ : Type) (c : C γ) (k : γ → Prog C ε α) (b : γ), p = call c k ∧ p' = k b

theorem ends (p : Prog C ε α) : p.Ends := by
  induction p with
  | done a => exact ⟨_, fun _ ⟨_, _, _, _, heq, _⟩ => by cases heq⟩
  | fail e => exact ⟨_, fun _ ⟨_, _, _, _, heq, _⟩ => by cases heq⟩
  | call c k ih =>
      refine ⟨_, fun p' ⟨_, _, _, b, heq, hp'⟩ => ?_⟩
      cases heq
      rw [hp']
      exact ih b

/-- What the program does when nothing else happens between its calls. -/
def eval (handle : ∀ {β : Type}, C β → StateT σ (Except ε) β) :
    Prog C ε α → StateT σ (Except ε) α
  | done a => pure a
  | fail e => throw e
  | call c k => do
      let b ← handle c
      (k b).eval handle

variable {handle : ∀ {β : Type}, C β → StateT σ (Except ε) β}

@[simp] theorem eval_done (a : α) : (done a : Prog C ε α).eval handle = pure a := rfl

@[simp] theorem eval_fail (e : ε) : (fail e : Prog C ε α).eval handle = throw e := rfl

@[simp] theorem eval_pure (a : α) : (pure a : Prog C ε α).eval handle = pure a := rfl

@[simp] theorem eval_throw (e : ε) : (throw e : Prog C ε α).eval handle = throw e := rfl

@[simp] theorem eval_call {γ : Type} (c : C γ) (k : γ → Prog C ε α) :
    (call c k).eval handle = handle c >>= fun b => (k b).eval handle := rfl

@[simp] theorem eval_perform (c : C α) : (perform c : Prog C ε α).eval handle = handle c :=
  bind_pure (handle c)

@[simp] theorem eval_bind (p : Prog C ε α) (f : α → Prog C ε β) :
    (p >>= f).eval handle = p.eval handle >>= fun a => (f a).eval handle := by
  induction p with
  | done a => simp
  | fail e =>
      funext s
      rfl
  | call c k ih => simp [ih]

@[simp] theorem eval_map (f : α → β) (p : Prog C ε α) :
    (f <$> p).eval handle = f <$> p.eval handle := by
  simp only [map_eq_pure_bind, eval_bind, eval_pure]

theorem eval_bind_of_ok {p : Prog C ε α} {f : α → Prog C ε β} {s t : σ} {a : α}
    (h : p.eval handle s = .ok (a, t)) : (p >>= f).eval handle s = (f a).eval handle t := by
  rw [eval_bind]
  change (p.eval handle s >>= fun r => (f r.1).eval handle r.2) = _
  rw [h]
  rfl

/-- When each pass of a loop achieves something that the later passes keep, the loop achieves all
of it. -/
theorem eval_forM {γ : Type} {l : List γ} {f : γ → Prog C ε PUnit} {le : σ → σ → Prop}
    {P : γ → σ → Prop} (hrefl : ∀ s, le s s) (htrans : ∀ s t u, le s t → le t u → le s u)
    (hkept : ∀ x s t, P x s → le s t → P x t) {s : σ}
    (hbody : ∀ x ∈ l, ∀ t, le s t → ∃ u, (f x).eval handle t = .ok (.unit, u) ∧ le t u ∧ P x u) :
    ∃ t, (forM l f).eval handle s = .ok (.unit, t) ∧ le s t ∧ ∀ x ∈ l, P x t := by
  induction l generalizing s with
  | nil => exact ⟨s, rfl, hrefl s, by simp⟩
  | cons x l ih =>
      obtain ⟨t, hx, hle, hPx⟩ := hbody x (by simp) s (hrefl s)
      obtain ⟨u, hl, hle', hPl⟩ := ih fun y hy t' ht' => hbody y (by simp [hy]) t'
        (htrans _ _ _ hle ht')
      refine ⟨u, ?_, htrans _ _ _ hle hle', ?_⟩
      · rw [List.forM_cons, eval_bind_of_ok hx, hl]
      · exact List.forall_mem_cons.mpr ⟨hkept x t u hPx hle', hPl⟩

/-- The program makes the call `c` and goes on with its answer. -/
def Step (handle : ∀ {β : Type}, C β → StateT σ (Except ε) β) (s : σ) (p : Prog C ε α)
    (c : Σ β, C β) (s' : σ) (p' : Prog C ε α) : Prop :=
  ∃ k b, p = call c.2 k ∧ handle c.2 s = .ok (b, s') ∧ p' = k b

@[simp] theorem step_call {γ : Type} {c : C γ} {k : γ → Prog C ε α} {s s' : σ}
    {l : Σ β, C β} {p' : Prog C ε α} :
    Step handle s (call c k) l s' p' ↔ l = ⟨γ, c⟩ ∧ ∃ b, handle c s = .ok (b, s') ∧ p' = k b := by
  constructor
  · rintro ⟨k', b, heq, hb, rfl⟩
    obtain ⟨β', c'⟩ := l
    cases heq
    exact ⟨rfl, b, hb, rfl⟩
  · rintro ⟨rfl, b, hb, rfl⟩
    exact ⟨k, b, rfl, hb, rfl⟩

theorem Step.functional {p p' p'' : Prog C ε α} {s s' s'' : σ} {l l' : Σ β, C β}
    (h : Step handle s p l s' p') (h' : Step handle s p l' s'' p'') : s' = s'' ∧ p' = p'' := by
  obtain ⟨k, b, rfl, hb, rfl⟩ := h
  obtain ⟨rfl, b', hb', rfl⟩ := step_call.mp h'
  cases hb.symm.trans hb'
  exact ⟨rfl, rfl⟩

@[simp] theorem not_step_done {a : α} {s s' : σ} {l : Σ β, C β} {p' : Prog C ε α} :
    ¬ Step handle s (done a) l s' p' := by
  rintro ⟨_, _, heq, _⟩
  cases heq

@[simp] theorem not_step_fail {e : ε} {s s' : σ} {l : Σ β, C β} {p' : Prog C ε α} :
    ¬ Step handle s (fail e) l s' p' := by
  rintro ⟨_, _, heq, _⟩
  cases heq

end Prog

/-! ## Pools -/

/-- Threads over a common state. -/
structure Pool (σ P : Type*) where
  state : σ
  threads : List P

inductive Event (P L : Type*)
  | spawn (p : P)
  | step (i : ℕ) (l : L)

variable {σ P L : Type*} {starts : P → Prop} {tstep : σ → P → L → σ → P → Prop}

/-- A thread in `starts` is added, or one of the threads takes a step. -/
inductive PoolStep (starts : P → Prop) (tstep : σ → P → L → σ → P → Prop) :
    Pool σ P → Event P L → Pool σ P → Prop
  | spawn {s : σ} {ts : List P} {p : P} :
      starts p → PoolStep starts tstep ⟨s, ts⟩ (.spawn p) ⟨s, ts ++ [p]⟩
  | step {s s' : σ} {ts : List P} {i : ℕ} {p p' : P} {l : L} :
      ts[i]? = some p → tstep s p l s' p' →
        PoolStep starts tstep ⟨s, ts⟩ (.step i l) ⟨s', ts.set i p'⟩

/-- A thread of the pool after a step of thread `i` is that thread or was there
before. -/
theorem getElem?_set_cases {ts : List P} {i j : ℕ} {p p' q : P} (hi : ts[i]? = some p)
    (hj : (ts.set i p')[j]? = some q) : (j = i ∧ q = p') ∨ (j ≠ i ∧ ts[j]? = some q) := by
  rw [List.getElem?_set] at hj
  split at hj
  · rename_i heq
    subst heq
    have hlt : i < ts.length := (List.getElem?_eq_some_iff.mp hi).1
    rw [if_pos hlt, Option.some.injEq] at hj
    exact .inl ⟨rfl, hj.symm⟩
  · rename_i hne
    exact .inr ⟨fun h => hne h.symm, hj⟩

theorem getElem?_set_same {ts : List P} {i : ℕ} {p : P} (p' : P) (hi : ts[i]? = some p) :
    (ts.set i p')[i]? = some p' :=
  List.getElem?_set_self (List.getElem?_eq_some_iff.mp hi).1

theorem set_ne_nil {ts : List P} {i : ℕ} {p : P} (p' : P) (hi : ts[i]? = some p) :
    ts.set i p' ≠ [] := by
  rintro hnil
  have hsame := getElem?_set_same p' hi
  rw [hnil] at hsame
  cases hsame

theorem getElem?_append_cases {ts : List P} {p q : P} {j : ℕ}
    (hj : (ts ++ [p])[j]? = some q) : (j = ts.length ∧ q = p) ∨ ts[j]? = some q := by
  rcases Nat.lt_trichotomy j ts.length with hlt | heq | hgt
  · rw [List.getElem?_append_left hlt] at hj
    exact .inr hj
  · subst heq
    rw [List.getElem?_concat_length, Option.some.injEq] at hj
    exact .inl ⟨rfl, hj.symm⟩
  · rw [List.getElem?_eq_none (by simp; omega)] at hj
    cases hj

/-- The threads that have been started, in this order. -/
def spawned : List (Event P L) → List P
  | [] => []
  | .spawn p :: es => p :: spawned es
  | .step _ _ :: es => spawned es

@[simp] theorem spawned_append (es es' : List (Event P L)) :
    spawned (es ++ es') = spawned es ++ spawned es' := by
  induction es with
  | nil => rfl
  | cons e es ih => cases e <;> simp [spawned, ih]

/-- Every thread of a pool has been started. -/
theorem length_spawned {s : σ} {es : List (Event P L)} {A : Pool σ P}
    (h : Reaches (PoolStep starts tstep) ⟨s, []⟩ es A) :
    (spawned es).length = A.threads.length := by
  induction h with
  | nil => rfl
  | snoc _ hstep ih => cases hstep <;> simpa [spawned] using ih

/-! ## Where a pool can get to -/

/-- Some events lead from the first pool to the second. -/
abbrev Leads (starts : P → Prop) (tstep : σ → P → L → σ → P → Prop) :
    Pool σ P → Pool σ P → Prop :=
  Relation.ReflTransGen fun p p' => ∃ e, PoolStep starts tstep p e p'

/-- A thread that has the state to itself gets from the first pair to the
second. -/
abbrev Solo (tstep : σ → P → L → σ → P → Prop) : σ × P → σ × P → Prop :=
  Relation.ReflTransGen fun a b => ∃ l, tstep a.1 a.2 l b.1 b.2

theorem leads_spawn {s : σ} {ts : List P} {p : P} (hp : starts p) :
    Leads starts tstep ⟨s, ts⟩ ⟨s, ts ++ [p]⟩ :=
  .single ⟨_, .spawn hp⟩

theorem solo_step {s s' : σ} {p p' : P} {l : L} (h : tstep s p l s' p') :
    Solo tstep (s, p) (s', p') :=
  .single ⟨l, h⟩

/-- What a thread can do alone it can do while the other threads wait. -/
theorem leads_solo {s s' : σ} {ts : List P} {i : ℕ} {p p' : P} (hi : ts[i]? = some p)
    (h : Solo tstep (s, p) (s', p')) :
    Leads starts tstep ⟨s, ts⟩ ⟨s', ts.set i p'⟩ := by
  have hall : ∀ b : σ × P, Solo tstep (s, p) b →
      Leads starts tstep ⟨s, ts⟩ ⟨b.1, ts.set i b.2⟩ := by
    intro b hb
    induction hb with
    | refl =>
        obtain ⟨hlt, hget⟩ := List.getElem?_eq_some_iff.mp hi
        subst hget
        rw [List.set_getElem_self]
    | tail _ hstep ih =>
        obtain ⟨l, hl⟩ := hstep
        have hone : PoolStep starts tstep _ _ _ := .step (getElem?_set_same _ hi) hl
        rw [List.set_set] at hone
        exact ih.tail ⟨_, hone⟩
  exact hall _ h

theorem leads_step {s s' : σ} {ts : List P} {i : ℕ} {p p' : P} {l : L} (hi : ts[i]? = some p)
    (h : tstep s p l s' p') : Leads starts tstep ⟨s, ts⟩ ⟨s', ts.set i p'⟩ :=
  leads_solo hi (solo_step h)

/-- Where every thread can come to an end alone, all threads but one can come
to an end while that one waits. -/
theorem leads_finish_others {final : P → Prop}
    (hfinal : ∀ s p, ∃ s' p', Solo tstep (s, p) (s', p') ∧ final p') {s : σ} {ts : List P}
    {i : ℕ} {p : P} (hi : ts[i]? = some p) :
    ∃ s' ts', Leads starts tstep ⟨s, ts⟩ ⟨s', ts'⟩ ∧ ts'[i]? = some p ∧
      ∀ j q, j ≠ i → ts'[j]? = some q → final q := by
  -- the threads come to an end one after the other, from the first on
  have hall : ∀ n, ∃ s' ts', Leads starts tstep ⟨s, ts⟩ ⟨s', ts'⟩ ∧ ts'.length = ts.length ∧
      ts'[i]? = some p ∧ ∀ j q, j < n → j ≠ i → ts'[j]? = some q → final q := by
    intro n
    induction n with
    | zero => exact ⟨s, ts, .refl, rfl, hi, fun j q hj => absurd hj (Nat.not_lt_zero j)⟩
    | succ n ih =>
        obtain ⟨s₁, ts₁, hlead, hlen, hi₁, hdone⟩ := ih
        by_cases hn : n = i
        · refine ⟨s₁, ts₁, hlead, hlen, hi₁, fun j q hj hji => hdone j q ?_ hji⟩
          omega
        · cases hq : ts₁[n]? with
          | none =>
              refine ⟨s₁, ts₁, hlead, hlen, hi₁, fun j q hj hji hjq => ?_⟩
              rcases Nat.lt_succ_iff_lt_or_eq.mp hj with hlt | rfl
              · exact hdone j q hlt hji hjq
              · rw [hq] at hjq
                cases hjq
          | some q =>
              obtain ⟨s₂, q', hsolo, hq'⟩ := hfinal s₁ q
              refine ⟨s₂, ts₁.set n q', hlead.trans (leads_solo hq hsolo), by simp [hlen], ?_, ?_⟩
              · rw [List.getElem?_set_ne hn]
                exact hi₁
              · intro j r hj hji hjr
                rcases getElem?_set_cases hq hjr with ⟨_, rfl⟩ | ⟨hjn, hjr'⟩
                · exact hq'
                · exact hdone j r (by omega) hji hjr'
  obtain ⟨s', ts', hlead, hlen, hi', hdone⟩ := hall ts.length
  refine ⟨s', ts', hlead, hi', fun j q hji hjq => hdone j q ?_ hji hjq⟩
  have hlt : j < ts'.length := (List.getElem?_eq_some_iff.mp hjq).1
  omega

section Simulation

variable {σ₁ P₁ L₁ σ₂ P₂ L₂ : Type*} {starts₁ : P₁ → Prop}
  {tstep₁ : σ₁ → P₁ → L₁ → σ₁ → P₁ → Prop} {starts₂ : P₂ → Prop}
  {tstep₂ : σ₂ → P₂ → L₂ → σ₂ → P₂ → Prop}

theorem forall₂_set {S : P₁ → P₂ → Prop} {ts : List P₁} {us : List P₂}
    (h : List.Forall₂ S ts us) {p : P₁} {q : P₂} (hpq : S p q) (i : ℕ) :
    List.Forall₂ S (ts.set i p) (us.set i q) := by
  induction h generalizing i with
  | nil => exact .nil
  | cons hhead htail ih =>
      cases i with
      | zero => exact .cons hpq htail
      | succ i => exact .cons hhead (ih i)

theorem forall₂_getElem? {S : P₁ → P₂ → Prop} {ts : List P₁} {us : List P₂}
    (h : List.Forall₂ S ts us) {i : ℕ} {p : P₁} (hi : ts[i]? = some p) :
    ∃ q, us[i]? = some q ∧ S p q := by
  induction h generalizing i with
  | nil => cases hi
  | cons hhead htail ih =>
      cases i with
      | zero =>
          cases hi
          exact ⟨_, rfl, hhead⟩
      | succ i => exact ih hi

theorem forall₂_mem {S : P₁ → P₂ → Prop} {ts : List P₁} {us : List P₂}
    (h : List.Forall₂ S ts us) {p : P₁} (hp : p ∈ ts) : ∃ q ∈ us, S p q := by
  obtain ⟨i, hi⟩ := List.mem_iff_getElem?.mp hp
  obtain ⟨q, hq, hpq⟩ := forall₂_getElem? h hi
  exact ⟨q, List.mem_of_getElem? hq, hpq⟩

/-- Where every thread of the first kind is matched by one of the second kind
that answers each of its steps with steps of its own, pools of the second kind
can follow pools of the first. -/
theorem Leads.simulate {R : σ₁ → σ₂ → Prop} {S : P₁ → P₂ → Prop}
    (hstart : ∀ p, starts₁ p → ∃ q, starts₂ q ∧ S p q)
    (hstep : ∀ s t p q l s' p', R s t → S p q → tstep₁ s p l s' p' →
      ∃ t' q', Solo tstep₂ (t, q) (t', q') ∧ R s' t' ∧ S p' q')
    {A A' : Pool σ₁ P₁} {B : Pool σ₂ P₂} (hR : R A.state B.state)
    (hS : List.Forall₂ S A.threads B.threads) (h : Leads starts₁ tstep₁ A A') :
    ∃ B', Leads starts₂ tstep₂ B B' ∧ R A'.state B'.state ∧
      List.Forall₂ S A'.threads B'.threads := by
  induction h with
  | refl => exact ⟨B, .refl, hR, hS⟩
  | tail _ he ih =>
      obtain ⟨⟨t, us⟩, hlead, hR', hS'⟩ := ih
      obtain ⟨e, he⟩ := he
      cases he with
      | spawn hp =>
          obtain ⟨q, hq, hpq⟩ := hstart _ hp
          exact ⟨_, hlead.trans (leads_spawn hq), hR',
            List.rel_append hS' (.cons hpq .nil)⟩
      | step hi hone =>
          obtain ⟨q, hj, hpq⟩ := forall₂_getElem? hS' hi
          obtain ⟨t', q', hsolo, hR'', hpq'⟩ := hstep _ _ _ _ _ _ _ hR' hpq hone
          exact ⟨_, hlead.trans (leads_solo hj hsolo), hR'', forall₂_set hS' hpq' _⟩

end Simulation

end Pools
