import ProgrammableCaching.Library.LastWriter
import ProgrammableCaching.Library.Runs
import ProgrammableCaching.Library.UnorderedMap

/-! Two indexes over one log: each finds the latest entry with a key, and an entry that is added
overwrites at most one place in each. Where one index leads to an entry that the other has given
up, the two disagree. -/

namespace Indexes

open LastWriter Runs UnorderedMap

variable {ε κ κ' : Type*} {key : ε → κ} {l : List ε} {k : κ} {n n' : ℕ} {e e' : ε}

/-- The latest entry with the key `k` is `e`, the one behind `n` others. -/
def LatestAt (key : ε → κ) (l : List ε) (k : κ) (n : ℕ) (e : ε) : Prop :=
  ∃ pre post, l = pre ++ e :: post ∧ pre.length = n ∧ key e = k ∧ ∀ later ∈ post, key later ≠ k

theorem LatestAt.key_eq (h : LatestAt key l k n e) : key e = k := by
  obtain ⟨_, _, _, _, hkey, _⟩ := h
  exact hkey

theorem LatestAt.getElem? (h : LatestAt key l k n e) : l[n]? = some e := by
  obtain ⟨pre, post, rfl, rfl, _⟩ := h
  simp

theorem LatestAt.lt_length (h : LatestAt key l k n e) : n < l.length :=
  (List.getElem?_eq_some_iff.mp h.getElem?).1

/-- No entry with the key comes later. -/
theorem LatestAt.le (h : LatestAt key l k n e) (he' : l[n']? = some e') (hkey : key e' = k) :
    n' ≤ n := by
  obtain ⟨pre, post, rfl, rfl, _, hpost⟩ := h
  by_contra hlt
  have hbehind : post[n' - (pre.length + 1)]? = some e' := by
    rw [← he', List.append_cons, List.getElem?_append_right (by simp; omega)]
    simp
  exact hpost e' (List.mem_of_getElem? hbehind) hkey

theorem not_latestAt_nil : ¬ LatestAt key [] k n e := by
  intro h
  simpa using h.lt_length

/-- A new entry is the latest with its key, and the others stay the latest with theirs. -/
theorem latestAt_snoc : LatestAt key (l ++ [e]) k n e' ↔
    (key e = k ∧ n = l.length ∧ e' = e) ∨ (key e ≠ k ∧ LatestAt key l k n e') := by
  constructor
  · rintro ⟨pre, post, hsplit, rfl, hkey, hpost⟩
    cases post using List.reverseRecOn with
    | nil =>
        obtain ⟨rfl, heq⟩ := List.append_inj' hsplit rfl
        cases heq
        exact .inl ⟨hkey, rfl, rfl⟩
    | append_singleton post last =>
        rw [← List.cons_append, ← List.append_assoc] at hsplit
        obtain ⟨rfl, heq⟩ := List.append_inj' hsplit rfl
        cases heq
        exact .inr ⟨hpost e (by simp), pre, post, rfl, rfl, hkey,
          fun later hlater => hpost later (by simp [hlater])⟩
  · rintro (⟨hkey, rfl, rfl⟩ | ⟨hother, pre, post, rfl, rfl, hkey, hpost⟩)
    · exact ⟨l, [], rfl, rfl, hkey, by simp⟩
    · refine ⟨pre, post ++ [e], by simp, rfl, hkey, fun later hlater => ?_⟩
      rcases List.mem_append.mp hlater with hlater | hlater
      · exact hpost later hlater
      · rwa [List.mem_singleton.mp hlater]

/-- The table with the place of the latest entry for each key. -/
def index [DecidableEq κ] (key : ε → κ) (l : List ε) : UMap κ ℕ :=
  l.zipIdx.foldl (fun m entry => m.insert (key entry.1) entry.2) ∅

section Index

variable [DecidableEq κ]

@[simp] theorem index_nil : index key ([] : List ε) = ∅ := rfl

theorem index_snoc : index key (l ++ [e]) = (index key l).insert (key e) l.length := by
  simp [index, List.zipIdx_append]

theorem lookup_index : (index key l).lookup k = some n ↔ ∃ e, LatestAt key l k n e := by
  induction l using List.reverseRecOn with
  | nil => simp [not_latestAt_nil]
  | append_singleton l e ih =>
      rw [index_snoc, lookup_insert_ite]
      simp only [latestAt_snoc]
      by_cases hkey : k = key e
      · simp [hkey, eq_comm]
      · simp [hkey, Ne.symm hkey, ih]

end Index

/-! ## Two keys -/

/-- What the second index finds is what the first one finds for it. -/
def Agree (first : ε → κ) (second : ε → κ') (l : List ε) : Prop :=
  ∀ k n e, LatestAt second l k n e → LatestAt first l (first e) n e

/-- An entry with the first key of `e` that the second index still finds has the second key of
`e`. -/
def Keeps (first : ε → κ) (second : ε → κ') (l : List ε) (e : ε) : Prop :=
  ∀ k n e', LatestAt second l k n e' → first e' = first e → k = second e

section Agree

variable {first : ε → κ} {second : ε → κ'}

/-- Entries need not be told apart by their places: the indexes agree as soon as they find equal
ones. -/
theorem agree_of_entries (h : ∀ k n e, LatestAt second l k n e → ∃ m, LatestAt first l (first e) m e) :
    Agree first second l := by
  intro k n e hsecond
  obtain ⟨m, hfirst⟩ := h k n e hsecond
  have hmn : m ≤ n := hsecond.le hfirst.getElem? hsecond.key_eq
  have hnm : n ≤ m := hfirst.le hsecond.getElem? rfl
  rwa [Nat.le_antisymm hnm hmn]

theorem agree_nil : Agree first second [] := fun _ _ _ h => absurd h not_latestAt_nil

/-- Where the indexes agree, the next entry lets them exactly when it leaves behind no entry with
its first key. -/
theorem agree_snoc (h : Agree first second l) :
    Agree first second (l ++ [e]) ↔ Keeps first second l e := by
  constructor
  · intro hagree k n e' hlatest hfirst
    by_contra hne
    have hstill : LatestAt second (l ++ [e]) k n e' :=
      latestAt_snoc.mpr (.inr ⟨Ne.symm hne, hlatest⟩)
    rcases latestAt_snoc.mp (hagree k n e' hstill) with ⟨_, hn, _⟩ | ⟨hother, _⟩
    · exact absurd hlatest.lt_length (by omega)
    · exact hother hfirst.symm
  · intro hkeeps k n e' hlatest
    rcases latestAt_snoc.mp hlatest with ⟨_, rfl, rfl⟩ | ⟨hsecond, hbefore⟩
    · exact latestAt_snoc.mpr (.inl ⟨rfl, rfl, rfl⟩)
    · refine latestAt_snoc.mpr (.inr ⟨fun hfirst => ?_, h k n e' hbefore⟩)
      exact hsecond (hkeeps k n e' hbefore hfirst.symm).symm

/-- **The indexes agree all along exactly when every entry keeps them.** -/
theorem agree_throughout_iff :
    Throughout (Agree first second) l ↔ EveryStep (Keeps first second) l := by
  have hany : Throughout (fun _ : List ε => True) l := fun _ _ => trivial
  exact throughout_iff_everyStep agree_nil (fun _ _ _ h => agree_snoc h) hany

end Agree

end Indexes
