import Mathlib.Tactic.Common

/-! What a call reports, why it may not come back, and the code of an RPC
handler as a state transformer that may fail. -/

namespace ProgrammableCaching

/-- What a gRPC call reports back. -/
inductive Status
  | ok
  | unavailable
  deriving DecidableEq, Repr

def Status.isOk (s : Status) : Bool := s = .ok

/-- Why a call does not come back with a status: a failed `assert`, an
`out_of_range` from `at()` or an index outside a repeated field, an iterator
moved by `npos` or taken from an empty table, or a request that waits for a
server that is not there. -/
inductive Failure
  | assertion
  | outOfRange
  | badIterator
  | undelivered
  deriving DecidableEq, Repr

/-- Code that runs against the state `ω` of the rest of the system. -/
abbrev Handler (ω : Type) : Type → Type := StateT ω (Except Failure)

/-- A C `assert`. -/
def check {m : Type → Type*} [Monad m] [MonadExceptOf Failure m] (b : Bool) : m Unit :=
  if b then pure () else throw .assertion

/-- The result of a call that may throw. -/
def lift {m : Type → Type*} [Monad m] [MonadExceptOf Failure m] {α : Type} :
    Except Failure α → m α
  | .ok a => pure a
  | .error e => throw e

namespace Handler

variable {ω α β : Type}

theorem bind_apply (x : Handler ω α) (f : α → Handler ω β) (w : ω) :
    (x >>= f) w = match x w with
      | .ok (a, w') => f a w'
      | .error e => .error e := by
  cases h : x w <;> simp [bind, StateT.bind, Except.bind, h]

theorem bind_of_ok {x : Handler ω α} {f : α → Handler ω β} {w w' : ω} {a : α}
    (h : x w = .ok (a, w')) : (x >>= f) w = f a w' := by
  rw [bind_apply, h]

theorem bind_ok {x : Handler ω α} {f : α → Handler ω β} {w : ω} {r : β × ω} :
    (x >>= f) w = .ok r ↔ ∃ a w', x w = .ok (a, w') ∧ f a w' = .ok r := by
  rw [bind_apply]
  constructor
  · intro h
    cases hx : x w with
    | error e => rw [hx] at h; cases h
    | ok p => exact ⟨p.1, p.2, rfl, by rw [hx] at h; exact h⟩
  · rintro ⟨a, w', hx, hf⟩
    rw [hx]
    exact hf

@[simp] theorem pure_apply (a : α) (w : ω) : (pure a : Handler ω α) w = .ok (a, w) := rfl

@[simp] theorem throw_apply (e : Failure) (w : ω) :
    (throw e : Handler ω α) w = .error e := rfl

@[simp] theorem lift_ok (a : α) (w : ω) :
    (lift (.ok a) : Handler ω α) w = .ok (a, w) := rfl

@[simp] theorem lift_error (e : Failure) (w : ω) :
    (lift (.error e) : Handler ω α) w = .error e := rfl

theorem check_ok {b : Bool} {w : ω} {r : Unit × ω} :
    (check b : Handler ω Unit) w = .ok r ↔ b = true ∧ r = ((), w) := by
  cases b with
  | false => simp [check]
  | true => simp [check, eq_comm]

@[simp] theorem check_true (w : ω) : (check true : Handler ω Unit) w = .ok ((), w) := rfl

end Handler

/-- What comes through a bind has come through both of its parts. -/
theorem exceptBind_ok {α β : Type} {x : Except Failure α} {f : α → Except Failure β} {b : β} :
    (x >>= f) = .ok b ↔ ∃ a, x = .ok a ∧ f a = .ok b := by
  cases x <;> simp [bind, Except.bind]

/-- A loop comes through when it does up to its last element and that step does. -/
theorem foldlM_snoc_ok {α β : Type} {f : β → α → Except Failure β} {l : List α} {a : α}
    {b b' : β} : (l ++ [a]).foldlM f b = .ok b' ↔
      ∃ b₁, l.foldlM f b = .ok b₁ ∧ f b₁ a = .ok b' := by
  rw [List.foldlM_append, exceptBind_ok]
  simp

/-- A loop makes `Q` hold exactly at the elements of `mark`, when every step does and keeps
the invariant it needs. -/
theorem foldlM_marks {α β : Type} {f : β → α → Except Failure β} {I Q : β → Prop}
    {mark : α → Prop} {l : List α} {b b' : β}
    (hstep : ∀ a ∈ l, ∀ b b', I b → f b a = .ok b' → I b' ∧ (Q b' ↔ Q b ∨ mark a)) (h : I b)
    (hok : l.foldlM f b = .ok b') : I b' ∧ (Q b' ↔ Q b ∨ ∃ a ∈ l, mark a) := by
  induction l generalizing b with
  | nil =>
      cases hok
      exact ⟨h, by simp⟩
  | cons a l ih =>
      rw [List.foldlM_cons, exceptBind_ok] at hok
      obtain ⟨b₁, hf, hok⟩ := hok
      obtain ⟨h₁, hQ₁⟩ := hstep a (by simp) b b₁ h hf
      obtain ⟨h', hQ'⟩ := ih (fun a' ha' => hstep a' (by simp [ha'])) h₁ hok
      refine ⟨h', ?_⟩
      simp [hQ', hQ₁, or_assoc]

/-- A loop whose steps come through or not, whatever the state, comes through when
all of them do. -/
theorem foldlM_ok_iff {α β : Type} {f : β → α → Except Failure β} {P : α → Prop}
    (hstep : ∀ b a, (∃ b', f b a = .ok b') ↔ P a) {l : List α} {b : β} :
    (∃ b', l.foldlM f b = .ok b') ↔ ∀ a ∈ l, P a := by
  induction l generalizing b with
  | nil => exact ⟨fun _ => by simp, fun _ => ⟨b, rfl⟩⟩
  | cons a l ih =>
      rw [List.foldlM_cons, List.forall_mem_cons, ← hstep b a]
      cases hf : f b a with
      | error e =>
          constructor
          · rintro ⟨b', hb'⟩
            cases hb'
          · rintro ⟨⟨b', hb'⟩, _⟩
            cases hb'
      | ok b₁ => exact (ih (b := b₁)).trans (and_iff_right ⟨b₁, rfl⟩).symm

end ProgrammableCaching
