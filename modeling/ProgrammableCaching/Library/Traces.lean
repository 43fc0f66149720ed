import ProgrammableCaching.Library.Pools

/-! What code does whatever its calls answer: the calls it makes and whether it
fails. A script is code whose calls do not depend on the answers. -/

namespace Traces

open Pools

variable {C : Type → Type} {ε α β : Type}

/-- A call with its answer. -/
abbrev Answered (C : Type → Type) := Σ β, C β × β

/-- With some answers the code makes these calls, and the last argument is left
of it. -/
inductive Trace : Prog C ε α → List (Answered C) → Prog C ε α → Prop
  | nil (p : Prog C ε α) : Trace p [] p
  | call {γ : Type} (c : C γ) {k : γ → Prog C ε α} (b : γ) {ts : List (Answered C)}
      {p' : Prog C ε α} : Trace (k b) ts p' → Trace (.call c k) (⟨γ, c, b⟩ :: ts) p'

/-- The calls of a trace without their answers. -/
def callsOf (ts : List (Answered C)) : List (Σ β, C β) := ts.map fun t => ⟨t.1, t.2.1⟩

/-- The calls one after the other, whatever they answer, and then `p`. -/
def script (cs : List (Σ β, C β)) (p : Prog C ε α) : Prog C ε α :=
  cs.foldr (fun c q => .call c.2 fun _ => q) p

variable {p p' p'' : Prog C ε α} {ts ts' : List (Answered C)} {cs cs' : List (Σ β, C β)}

@[simp] theorem callsOf_nil : callsOf ([] : List (Answered C)) = [] := rfl

@[simp] theorem callsOf_append : callsOf (ts ++ ts') = callsOf ts ++ callsOf ts' :=
  List.map_append

@[simp] theorem script_nil (p : Prog C ε α) : script [] p = p := rfl

theorem script_append (p : Prog C ε α) :
    script (cs ++ cs') p = script cs (script cs' p) := by
  simp [script]

theorem Trace.append (h : Trace p ts p') (h' : Trace p' ts' p'') : Trace p (ts ++ ts') p'' := by
  induction h with
  | nil => exact h'
  | call c b _ ih => exact .call c b (ih h')

theorem trace_done {a : α} : Trace (.done a : Prog C ε α) ts p' ↔ ts = [] ∧ p' = .done a := by
  constructor
  · intro h
    cases h
    exact ⟨rfl, rfl⟩
  · rintro ⟨rfl, rfl⟩
    exact .nil _

theorem trace_call {γ : Type} {c : C γ} {k : γ → Prog C ε α} :
    Trace (.call c k) ts p' ↔ (ts = [] ∧ p' = .call c k) ∨
      ∃ b ts', ts = ⟨γ, c, b⟩ :: ts' ∧ Trace (k b) ts' p' := by
  constructor
  · intro h
    cases h with
    | nil => exact .inl ⟨rfl, rfl⟩
    | call c b h => exact .inr ⟨b, _, rfl, h⟩
  · rintro (⟨rfl, rfl⟩ | ⟨b, ts', rfl, h⟩)
    · exact .nil _
    · exact .call c b h

/-- A script is on its way, or it has made all its calls. -/
theorem trace_script :
    Trace (script cs p) ts p' ↔
      (∃ c rest, cs = callsOf ts ++ c :: rest ∧ p' = script (c :: rest) p) ∨
      ∃ ts₁ ts₂, ts = ts₁ ++ ts₂ ∧ callsOf ts₁ = cs ∧ Trace p ts₂ p' := by
  induction cs generalizing ts with
  | nil => simp [callsOf]
  | cons c cs ih =>
      have hscript : script (c :: cs) p = .call c.2 fun _ => script cs p := rfl
      rw [hscript, trace_call]
      constructor
      · rintro (⟨rfl, rfl⟩ | ⟨b, ts', rfl, h⟩)
        · exact .inl ⟨c, cs, rfl, rfl⟩
        · rcases ih.mp h with ⟨c', rest, rfl, rfl⟩ | ⟨ts₁, ts₂, rfl, rfl, h₂⟩
          · exact .inl ⟨c', rest, rfl, rfl⟩
          · exact .inr ⟨⟨_, c.2, b⟩ :: ts₁, ts₂, rfl, rfl, h₂⟩
      · rintro (⟨c', rest, hcs, rfl⟩ | ⟨ts₁, ts₂, rfl, hcs, h₂⟩)
        · cases ts with
          | nil =>
              cases hcs
              exact .inl ⟨rfl, rfl⟩
          | cons t ts =>
              obtain ⟨rfl, hrest⟩ := List.cons.inj hcs
              exact .inr ⟨t.2.2, ts, rfl, ih.mpr (.inl ⟨c', rest, hrest, rfl⟩)⟩
        · cases ts₁ with
          | nil => cases hcs
          | cons t ts₁ =>
              obtain ⟨rfl, hrest⟩ := List.cons.inj hcs
              exact .inr ⟨t.2.2, ts₁ ++ ts₂, rfl, ih.mpr (.inr ⟨ts₁, ts₂, rfl, hrest, h₂⟩)⟩

/-! ## Code that comes to a result -/

/-- Every answer of the trace is one that the call may give. -/
def Allowed (good : ∀ {β : Type}, C β → β → Prop) (ts : List (Answered C)) : Prop :=
  ∀ t ∈ ts, good t.2.1 t.2.2

/-- Whatever the calls answer, as long as the answers are good, the code comes to
a result and does not fail. -/
def Completes (good : ∀ {β : Type}, C β → β → Prop) : Prog C ε α → Prop
  | .done _ => True
  | .fail _ => False
  | .call c k => ∀ b, good c b → Completes good (k b)

section Answers

variable {good : ∀ {β : Type}, C β → β → Prop}

theorem Allowed.of_append_right (h : Allowed good (ts ++ ts')) : Allowed good ts' :=
  fun t ht => h t (List.mem_append_right _ ht)

/-- Where every call has a good answer, a script fails only at its end. -/
theorem completes_script (hanswer : ∀ {β : Type} (c : C β), ∃ b, good c b)
    (cs : List (Σ β, C β)) : Completes good (script cs p) ↔ Completes good p := by
  induction cs with
  | nil => rfl
  | cons c cs ih =>
      obtain ⟨b, hb⟩ := hanswer c.2
      rw [← ih]
      exact ⟨fun h => h b hb, fun h _ _ => h⟩

/-- Where every call has a good answer, a script can come to its end. -/
theorem exists_trace (hanswer : ∀ {β : Type} (c : C β), ∃ b, good c b) (cs : List (Σ β, C β))
    (p : Prog C ε α) : ∃ ts, callsOf ts = cs ∧ Allowed good ts ∧ Trace (script cs p) ts p := by
  induction cs with
  | nil => exact ⟨[], rfl, by simp [Allowed], .nil p⟩
  | cons c cs ih =>
      obtain ⟨ts, rfl, hgood, htrace⟩ := ih
      obtain ⟨b, hb⟩ := hanswer c.2
      exact ⟨⟨_, c.2, b⟩ :: ts, rfl, List.forall_mem_cons.mpr ⟨hb, hgood⟩, .call c.2 b htrace⟩

end Answers

/-! ## Code that runs alone -/

section Outcome

variable {σ : Type} {handle : ∀ {β : Type}, C β → StateT σ (Except ε) β}

/-- What the code comes to, and the state when it does; also when a call does not
come back. -/
def outcome (handle : ∀ {β : Type}, C β → StateT σ (Except ε) β) :
    Prog C ε α → σ → Except ε α × σ
  | .done a, s => (.ok a, s)
  | .fail e, s => (.error e, s)
  | .call c k, s =>
      match handle c s with
      | .ok (b, s') => outcome handle (k b) s'
      | .error e => (.error e, s)

@[simp] theorem outcome_done (a : α) (s : σ) :
    outcome handle (.done a : Prog C ε α) s = (.ok a, s) := rfl

@[simp] theorem outcome_fail (e : ε) (s : σ) :
    outcome handle (.fail e : Prog C ε α) s = (.error e, s) := rfl

/-- The call comes back. -/
def Returns (handle : ∀ {β : Type}, C β → StateT σ (Except ε) β) (s : σ) (c : Σ β, C β)
    (s' : σ) : Prop :=
  ∃ b, handle c.2 s = .ok (b, s')

theorem outcome_call_ok {γ : Type} {c : C γ} {k : γ → Prog C ε α} {s s' : σ} {b : γ}
    (h : handle c s = .ok (b, s')) :
    outcome handle (.call c k) s = outcome handle (k b) s' := by
  simp [outcome, h]

theorem outcome_call_error {γ : Type} {c : C γ} {k : γ → Prog C ε α} {s : σ} {e : ε}
    (h : handle c s = .error e) : outcome handle (.call c k) s = (.error e, s) := by
  simp [outcome, h]

/-- A script whose calls all come back goes on behind them. -/
theorem outcome_script {s s' : σ} (h : Runs.Reaches (Returns handle) s cs s')
    (p : Prog C ε α) : outcome handle (script cs p) s = outcome handle p s' := by
  induction h generalizing p with
  | nil => rfl
  | snoc _ hret ih =>
      obtain ⟨b, hb⟩ := hret
      rw [script_append, ih]
      exact outcome_call_ok hb

/-- A script ends at the first call that does not come back. -/
theorem outcome_script_error {s s' : σ} {c : Σ β, C β} {e : ε}
    (h : Runs.Reaches (Returns handle) s cs s') (hc : handle c.2 s' = .error e)
    (p : Prog C ε α) : outcome handle (script (cs ++ c :: cs') p) s = (.error e, s') := by
  rw [script_append, outcome_script h]
  exact outcome_call_error hc

/-- The calls of a script come back up to the first one that does not. -/
theorem reaches_or_stops (cs : List (Σ β, C β)) (s : σ) :
    (∃ s', Runs.Reaches (Returns handle) s cs s') ∨
      ∃ pre c post s' e, cs = pre ++ c :: post ∧ Runs.Reaches (Returns handle) s pre s' ∧
        handle c.2 s' = .error e := by
  induction cs using List.reverseRecOn with
  | nil => exact .inl ⟨s, .nil⟩
  | append_singleton cs c ih =>
      rcases ih with ⟨s', hs'⟩ | ⟨pre, c', post, s', e, rfl, hs', he⟩
      · cases hc : handle c.2 s' with
        | ok r => exact .inl ⟨r.2, hs'.snoc ⟨r.1, hc⟩⟩
        | error e => exact .inr ⟨cs, c, [], s', e, rfl, hs', hc⟩
      · exact .inr ⟨pre, c', post ++ [c], s', e, by simp, hs', he⟩

end Outcome

end Traces
