import Mathlib.Data.List.Nodup
import Mathlib.Data.List.ReduceOption
import ProgrammableCaching.Library.Pools

/-! Histories of an object that serves several operations at a time, and when such a history is one
of a sequential object: every operation takes effect at one moment between its invocation and its
reply. -/

namespace Linearizability

open Runs Pools

/-- What the callers of an object see. The operations are numbered in the order in which they are
invoked. -/
inductive Event (O R : Type*)
  | invoke (op : O)
  | reply (i : ℕ) (r : R)
  deriving DecidableEq, Repr

variable {O R S : Type*} {spec : S → O → R × S} {s s' s'' : S} {h : List (Event O R)}
  {order : List (ℕ × R)} {i j : ℕ} {r : R} {op : O}

/-- The operations in the order of their invocations. -/
def invoked (h : List (Event O R)) : List O :=
  h.filterMap fun
    | .invoke op => some op
    | .reply _ _ => none

@[simp] theorem invoked_invoke (h : List (Event O R)) (op : O) :
    invoked (h ++ [.invoke op]) = invoked h ++ [op] := by
  simp [invoked]

@[simp] theorem invoked_reply (h : List (Event O R)) (i : ℕ) (r : R) :
    invoked (h ++ [.reply i r]) = invoked h := by
  simp [invoked]

/-- Operation `i` has replied before operation `j` is invoked. -/
def Precedes (h : List (Event O R)) (i j : ℕ) : Prop :=
  ∃ pre r post, h = pre ++ .reply i r :: post ∧ (invoked pre).length ≤ j

theorem precedes_snoc {e : Event O R} : Precedes (h ++ [e]) i j ↔
    Precedes h i j ∨ ∃ r, e = .reply i r ∧ (invoked h).length ≤ j := by
  constructor
  · rintro ⟨pre, r, post, heq, hle⟩
    induction post using List.reverseRecOn with
    | nil =>
        obtain ⟨rfl, he⟩ := List.append_inj' heq rfl
        exact .inr ⟨r, List.singleton_inj.mp he, hle⟩
    | append_singleton post e' _ =>
        rw [← List.cons_append, ← List.append_assoc] at heq
        exact .inl ⟨pre, r, post, (List.append_inj' heq rfl).1, hle⟩
  · rintro (⟨pre, r, post, rfl, hle⟩ | ⟨r, rfl, hle⟩)
    · exact ⟨pre, r, post ++ [e], by simp, hle⟩
    · exact ⟨h, r, [], rfl, hle⟩

theorem Precedes.exists_reply (hp : Precedes h i j) : ∃ r, .reply i r ∈ h := by
  obtain ⟨pre, r, post, rfl, _⟩ := hp
  exact ⟨r, by simp⟩

/-! ## Sequential explanations -/

/-- The sequential object serves the operation with this number among `ops`, with this answer. -/
def Serves (spec : S → O → R × S) (ops : List O) (s : S) (served : ℕ × R) (s' : S) : Prop :=
  ∃ op, ops[served.1]? = some op ∧ spec s op = (served.2, s')

/-- The sequential object, serving operations of `h` in the order given, gives all the answers of
`h`; and the order is none that a caller could tell from the order of events. -/
structure Explains (spec : S → O → R × S) (s : S) (h : List (Event O R)) (order : List (ℕ × R))
    (s' : S) : Prop where
  once : (order.map Prod.fst).Nodup
  replied : ∀ i r, .reply i r ∈ h → (i, r) ∈ order
  realTime : order.Pairwise fun p q => ¬ Precedes h q.1 p.1
  sequential : Reaches (Serves spec (invoked h)) s order s'

/-- The history is one of the sequential object, which it takes from `s` to `s'`. -/
def Linearizable (spec : S → O → R × S) (s : S) (h : List (Event O R)) (s' : S) : Prop :=
  ∃ order, Explains spec s h order s'

namespace Explains

theorem nil (spec : S → O → R × S) (s : S) : Explains spec s [] [] s where
  once := List.nodup_nil
  replied i r hr := by cases hr
  realTime := .nil
  sequential := .nil

/-- Only invoked operations are served. -/
theorem lt_length (he : Explains spec s h order s') {p : ℕ × R} (hp : p ∈ order) :
    p.1 < (invoked h).length := by
  obtain ⟨_, _, op, hop, _⟩ := he.sequential.step_of_mem hp
  exact (List.getElem?_eq_some_iff.mp hop).1

theorem invoke (he : Explains spec s h order s') (op : O) :
    Explains spec s (h ++ [.invoke op]) order s' where
  once := he.once
  replied i r hr := he.replied i r (by simpa using hr)
  realTime := he.realTime.imp fun hnot hp => hnot <| by
    rcases precedes_snoc.mp hp with hp | ⟨r, heq, _⟩
    · exact hp
    · cases heq
  sequential := by
    refine he.sequential.mono fun t p u ⟨op', hop', hserved⟩ => ⟨op', ?_, hserved⟩
    have hlt := (List.getElem?_eq_some_iff.mp hop').1
    rw [invoked_invoke, List.getElem?_append_left hlt, hop']

/-- An operation takes effect. -/
theorem commit (he : Explains spec s h order s') (hop : (invoked h)[i]? = some op)
    (hspec : spec s' op = (r, s'')) (hnew : i ∉ order.map Prod.fst) :
    Explains spec s h (order ++ [(i, r)]) s'' where
  once := by
    rw [List.map_append, List.map_singleton, ← List.concat_eq_append]
    exact List.Nodup.concat hnew he.once
  replied j r' hr := List.mem_append_left _ (he.replied j r' hr)
  realTime := by
    refine List.pairwise_append.mpr ⟨he.realTime, List.pairwise_singleton _ _, ?_⟩
    intro p _ q hq hp
    -- what has not taken effect yet has not replied
    obtain rfl := List.mem_singleton.mp hq
    obtain ⟨r', hr'⟩ := hp.exists_reply
    exact hnew (List.mem_map_of_mem (f := Prod.fst) (he.replied i r' hr'))
  sequential := he.sequential.snoc ⟨op, hop, hspec⟩

/-- An operation that has taken effect replies. -/
theorem reply (he : Explains spec s h order s') (hr : (i, r) ∈ order) :
    Explains spec s (h ++ [.reply i r]) order s' where
  once := he.once
  replied j r' hr' := by
    rcases List.mem_append.mp hr' with hr' | hr'
    · exact he.replied j r' hr'
    · cases List.mem_singleton.mp hr'
      exact hr
  realTime := by
    refine he.realTime.imp_of_mem fun {p q} hp _ hnot hprec => ?_
    rcases precedes_snoc.mp hprec with hprec | ⟨_, _, hle⟩
    · exact hnot hprec
    · have hlt := he.lt_length hp
      omega
  sequential := by
    rw [invoked_reply]
    exact he.sequential

end Explains

/-! ## Threads that serve operations -/

section Service

variable {C : Type → Type} {ε A Ω : Type} {O S : Type*} {spec : S → O → A × S}
  {code : O → Prog C ε A → Prop} {handle : ∀ {β : Type}, C β → StateT Ω (Except ε) β}

/-- An operation is invoked and gets a thread, a thread makes a call, or a thread that is done
replies and is gone. -/
inductive ServiceStep (code : O → Prog C ε A → Prop)
    (handle : ∀ {β : Type}, C β → StateT Ω (Except ε) β) :
    Pool Ω (Option (Prog C ε A)) → Option (Event O A) → Pool Ω (Option (Prog C ε A)) → Prop
  | invoke {w : Ω} {ts : List (Option (Prog C ε A))} {op : O} {p : Prog C ε A} :
      code op p → ServiceStep code handle ⟨w, ts⟩ (some (.invoke op)) ⟨w, ts ++ [some p]⟩
  | call {w w' : Ω} {ts : List (Option (Prog C ε A))} {i : ℕ} {p p' : Prog C ε A}
      {c : Σ β, C β} : ts[i]? = some (some p) → Prog.Step handle w p c w' p' →
        ServiceStep code handle ⟨w, ts⟩ none ⟨w', ts.set i (some p')⟩
  | reply {w : Ω} {ts : List (Option (Prog C ε A))} {i : ℕ} {a : A} :
      ts[i]? = some (some (.done a)) →
        ServiceStep code handle ⟨w, ts⟩ (some (.reply i a)) ⟨w, ts.set i none⟩

/-- What the callers see of a run. -/
def history (es : List (Option (Event O A))) : List (Event O A) := es.reduceOption

@[simp] theorem history_snoc (es : List (Option (Event O A))) (e : Option (Event O A)) :
    history (es ++ [e]) = history es ++ e.toList := by
  cases e <;> simp [history, List.reduceOption]

/-- Every operation has one step at which it takes effect on the object, which `abs` reads off the
state; `Before` and `After` are what may be left of its code before and after that step. -/
structure AtomicSteps (code : O → Prog C ε A → Prop)
    (handle : ∀ {β : Type}, C β → StateT Ω (Except ε) β) (spec : S → O → A × S) (abs : Ω → S)
    (Before : O → Prog C ε A → Prop) (After : A → Prog C ε A → Prop) : Prop where
  start : ∀ op p, code op p → Before op p
  step : ∀ op p w c w' p', Before op p → Prog.Step handle w p c w' p' →
    abs w' = abs w ∧ Before op p' ∨ ∃ a, spec (abs w) op = (a, abs w') ∧ After a p'
  rest : ∀ a p w c w' p', After a p → Prog.Step handle w p c w' p' → abs w' = abs w ∧ After a p'
  notBefore : ∀ op a, ¬ Before op (.done a)
  answer : ∀ a a', After a (.done a') → a' = a

/-- The thread of operation `i`, and whether the operation has been served. -/
def Placed (Before : O → Prog C ε A → Prop) (After : A → Prog C ε A → Prop)
    (h : List (Event O A)) (order : List (ℕ × A)) (i : ℕ) (p : Prog C ε A) : Prop :=
  ∃ op, (invoked h)[i]? = some op ∧
    (Before op p ∧ i ∉ order.map Prod.fst ∨ ∃ a, After a p ∧ (i, a) ∈ order)

variable {abs : Ω → S} {Before : O → Prog C ε A → Prop} {After : A → Prog C ε A → Prop}
  {w : Ω} {es : List (Option (Event O A))} {P : Pool Ω (Option (Prog C ε A))}

/-- **Atomic steps linearize.** What the callers see of threads that take effect at one step each is
a history of the sequential object. -/
theorem linearizable_of_atomicSteps (hatomic : AtomicSteps code handle spec abs Before After)
    (hrun : Reaches (ServiceStep code handle) ⟨w, []⟩ es P) :
    Linearizable spec (abs w) (history es) (abs P.state) := by
  suffices hinv : ∃ order, Explains spec (abs w) (history es) order (abs P.state) ∧
      P.threads.length = (invoked (history es)).length ∧
      ∀ i p, P.threads[i]? = some (some p) → Placed Before After (history es) order i p by
    obtain ⟨order, horder, _⟩ := hinv
    exact ⟨order, horder⟩
  induction hrun with
  | nil => exact ⟨[], .nil spec _, rfl, fun i p hi => by simp at hi⟩
  | snoc _ hstep ih =>
      obtain ⟨order, hexplains, hlength, hplaced⟩ := ih
      cases hstep with
      | @invoke w ts op p hcode =>
          simp only [history_snoc, Option.toList_some]
          refine ⟨order, hexplains.invoke op, by simpa using hlength, fun i q hi => ?_⟩
          rcases getElem?_append_cases hi with ⟨rfl, heq⟩ | hi
          · -- the number of the new operation is that of its thread
            cases heq
            refine ⟨op, ?_, .inl ⟨hatomic.start op p hcode, fun hmem => ?_⟩⟩
            · simp [show ts.length = _ from hlength]
            · obtain ⟨served, hserved, hnumber⟩ := List.mem_map.mp hmem
              have hlt := hexplains.lt_length hserved
              have hlength : ts.length = _ := hlength
              omega
          · obtain ⟨op', hop', hphase⟩ := hplaced i q hi
            refine ⟨op', ?_, hphase⟩
            rw [invoked_invoke, List.getElem?_append_left (List.getElem?_eq_some_iff.mp hop').1,
              hop']
      | @call w w' ts i p p' c hi hcall =>
          simp only [history_snoc, Option.toList_none, List.append_nil, List.length_set]
          obtain ⟨op, hop, hphase⟩ := hplaced i p hi
          rcases hphase with ⟨hbefore, hnew⟩ | ⟨a, hafter, hserved⟩
          · rcases hatomic.step op p w c w' p' hbefore hcall with
              ⟨habs, hbefore⟩ | ⟨a, hspec, hafter⟩
            · refine ⟨order, by rw [habs]; exact hexplains, hlength, fun j q hj => ?_⟩
              rcases getElem?_set_cases hi hj with ⟨rfl, heq⟩ | ⟨_, hj⟩
              · cases heq
                exact ⟨op, hop, .inl ⟨hbefore, hnew⟩⟩
              · exact hplaced j q hj
            · refine ⟨order ++ [(i, a)], hexplains.commit hop hspec hnew, hlength, fun j q hj => ?_⟩
              rcases getElem?_set_cases hi hj with ⟨rfl, heq⟩ | ⟨hne, hj⟩
              · cases heq
                exact ⟨op, hop, .inr ⟨a, hafter, by simp⟩⟩
              · obtain ⟨op', hop', hphase⟩ := hplaced j q hj
                refine ⟨op', hop', hphase.imp (And.imp_right fun hnew' => ?_) ?_⟩
                · simpa [hne] using hnew'
                · rintro ⟨a', hafter', hserved'⟩
                  exact ⟨a', hafter', List.mem_append_left _ hserved'⟩
          · obtain ⟨habs, hafter⟩ := hatomic.rest a p w c w' p' hafter hcall
            refine ⟨order, by rw [habs]; exact hexplains, hlength, fun j q hj => ?_⟩
            rcases getElem?_set_cases hi hj with ⟨rfl, heq⟩ | ⟨_, hj⟩
            · cases heq
              exact ⟨op, hop, .inr ⟨a, hafter, hserved⟩⟩
            · exact hplaced j q hj
      | @reply w ts i a hi =>
          simp only [history_snoc, Option.toList_some, invoked_reply, List.length_set]
          obtain ⟨op, hop, hphase⟩ := hplaced i _ hi
          have hserved : (i, a) ∈ order := by
            rcases hphase with ⟨hbefore, _⟩ | ⟨a', hafter, hserved⟩
            · exact absurd hbefore (hatomic.notBefore op a)
            · rwa [hatomic.answer a' a hafter]
          refine ⟨order, hexplains.reply hserved, hlength, fun j q hj => ?_⟩
          rcases getElem?_set_cases hi hj with ⟨_, heq⟩ | ⟨_, hj⟩
          · cases heq
          · simpa [Placed] using hplaced j q hj

end Service

/-! ## Code that serves its operation with one call -/

section Roles

/-- Which calls leave the object alone, and which call serves an operation, with which answer. -/
structure Roles (C : Type → Type) (O A : Type*) where
  idle : {β : Type} → C β → Prop
  serves : {β : Type} → O → C β → (β → A) → Prop

variable {C : Type → Type} {ε α β A Ω : Type} {O S : Type*} {roles : Roles C O A} {op : O}
  {Q : α → Prop} {R : β → Prop}

/-- All calls of the code are idle, and it comes to a result with `Q` or fails. -/
inductive Idle (roles : Roles C O A) (Q : α → Prop) : Prog C ε α → Prop
  | done {a : α} : Q a → Idle roles Q (.done a)
  | fail (e : ε) : Idle roles Q (.fail e)
  | call {γ : Type} {c : C γ} {k : γ → Prog C ε α} :
      roles.idle c → (∀ b, Idle roles Q (k b)) → Idle roles Q (.call c k)

/-- The code has one call that serves the operation, or it fails before. -/
inductive Undecided (roles : Roles C O A) (op : O) : Prog C ε A → Prop
  | fail (e : ε) : Undecided roles op (.fail e)
  | idle {γ : Type} {c : C γ} {k : γ → Prog C ε A} :
      roles.idle c → (∀ b, Undecided roles op (k b)) → Undecided roles op (.call c k)
  | serve {γ : Type} {c : C γ} {k : γ → Prog C ε A} {answer : γ → A} :
      roles.serves op c answer → (∀ b, Idle roles (· = answer b) (k b)) →
        Undecided roles op (.call c k)

theorem Idle.bind {p : Prog C ε α} {f : α → Prog C ε β} (h : Idle roles Q p)
    (hf : ∀ a, Q a → Idle roles R (f a)) : Idle roles R (p >>= f) := by
  induction h with
  | done ha => exact hf _ ha
  | fail e => exact .fail e
  | call hidle _ ih => exact .call hidle ih

theorem Idle.undecided {p : Prog C ε α} {f : α → Prog C ε A} (h : Idle roles Q p)
    (hf : ∀ a, Q a → Undecided roles op (f a)) : Undecided roles op (p >>= f) := by
  induction h with
  | done ha => exact hf _ ha
  | fail e => exact .fail e
  | call hidle _ ih => exact .idle hidle ih

variable {code : O → Prog C ε A → Prop} {handle : ∀ {β : Type}, C β → StateT Ω (Except ε) β}
  {spec : S → O → A × S} {abs : Ω → S}

/-- When the calls do what their roles say, the one call is the step at which the operation takes
effect. -/
theorem atomicSteps_of_roles (roles : Roles C O A)
    (hcode : ∀ op p, code op p → Undecided roles op p)
    (hidle : ∀ {β : Type} (c : C β) w b w', roles.idle c → handle c w = .ok (b, w') →
      abs w' = abs w)
    (hserves : ∀ {β : Type} op (c : C β) answer w b w', roles.serves op c answer →
      handle c w = .ok (b, w') → spec (abs w) op = (answer b, abs w')) :
    AtomicSteps code handle spec abs (Undecided roles) (fun a => Idle roles (· = a)) where
  start := hcode
  step op p w l w' p' hp hstep := by
    obtain ⟨k, b, rfl, hcall, rfl⟩ := hstep
    cases hp with
    | idle hc hk => exact .inl ⟨hidle _ w b w' hc hcall, hk b⟩
    | serve hc hk => exact .inr ⟨_, hserves op _ _ w b w' hc hcall, hk b⟩
  rest a p w l w' p' hp hstep := by
    obtain ⟨k, b, rfl, hcall, rfl⟩ := hstep
    cases hp with
    | call hc hk => exact ⟨hidle _ w b w' hc hcall, hk b⟩
  notBefore op a h := by cases h
  answer a a' h := by
    cases h with
    | done ha => exact ha

end Roles

end Linearizability
