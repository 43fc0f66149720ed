import ProgrammableCaching.Library.LastWriter
import ProgrammableCaching.Library.Runs

/-! A value that several parties change, and a copy of it elsewhere that they
bring up to date by reporting their changes later on. Some events change the
value, other events report a change; both carry the party and the new value. -/

namespace Reports

open LastWriter Runs

variable {ε I β : Type*} [DecidableEq I] [DecidableEq β]
  (changes reports : ε → Option (I × β))

/-- The changes not yet reported, after one more event. A report is about all
changes of its party to its value. -/
def note (open_ : List (I × β)) (e : ε) : List (I × β) :=
  match changes e, reports e with
  | some x, _ => open_ ++ [x]
  | none, some x => open_.filter (· ≠ x)
  | none, none => open_

/-- The changes of a history that have not been reported, oldest first. -/
def unreported (es : List ε) : List (I × β) := es.foldl (note changes reports) []

/-- A report is of a change that has not been reported. -/
def Justified (es : List ε) (e : ε) : Prop :=
  ∀ x, reports e = some x → x ∈ unreported changes reports es

/-- A report does not overtake an older change to another value. -/
def InTurn (es : List ε) (e : ε) : Prop :=
  ∀ x, reports e = some x → ∀ older newer, unreported changes reports es = older ++ x :: newer →
    ∀ y ∈ older, y.2 = x.2

variable {changes reports} {es : List ε} {e : ε} {x y : I × β} {b : β}

@[simp] theorem unreported_nil : unreported changes reports [] = [] := rfl

theorem unreported_snoc :
    unreported changes reports (es ++ [e]) =
      note changes reports (unreported changes reports es) e := by
  simp [unreported]

theorem unreported_change (reports : ε → Option (I × β)) (es : List ε) (hc : changes e = some x) :
    unreported changes reports (es ++ [e]) = unreported changes reports es ++ [x] := by
  simp [unreported_snoc, note, hc]

theorem unreported_report (es : List ε) (hc : changes e = none) (hr : reports e = some x) :
    unreported changes reports (es ++ [e]) = (unreported changes reports es).filter (· ≠ x) := by
  simp [unreported_snoc, note, hc, hr]

theorem unreported_other (es : List ε) (hc : changes e = none) (hr : reports e = none) :
    unreported changes reports (es ++ [e]) = unreported changes reports es := by
  simp [unreported_snoc, note, hc, hr]

theorem inTurn_of_none (hr : reports e = none) : InTurn changes reports es e := by
  intro x hx
  rw [hr] at hx
  cases hx

theorem inTurn_of_singleton (h : unreported changes reports es = [y]) :
    InTurn changes reports es e := by
  intro x _ older newer hsplit z hz
  rw [h] at hsplit
  cases older with
  | nil => cases hz
  | cons z' older => simp at hsplit

/-- A change stays open until it is reported. -/
theorem mem_unreported_snoc :
    y ∈ unreported changes reports (es ++ [e]) ↔ changes e = some y ∨
      (y ∈ unreported changes reports es ∧ (changes e = none → reports e ≠ some y)) := by
  cases hc : changes e with
  | some x =>
      rw [unreported_change reports es hc, List.mem_append, List.mem_singleton, or_comm,
        Option.some.injEq,
        eq_comm (a := y)]
      simp
  | none =>
      cases hr : reports e with
      | some x =>
          rw [unreported_report es hc hr, List.mem_filter]
          simp only [decide_eq_true_eq, reduceCtorEq, false_or, Option.some.injEq, ne_eq,
            eq_comm (a := y), forall_const]
      | none =>
          rw [unreported_other es hc hr]
          simp

/-- The value after a history that started with `b`. -/
abbrev valueAfter (effect : ε → Option (I × β)) (b : β) (es : List ε) : β :=
  after (fun e => (effect e).map Prod.snd) b es

omit [DecidableEq I] [DecidableEq β] in
theorem valueAfter_snoc (effect : ε → Option (I × β)) :
    valueAfter effect b (es ++ [e]) = ((effect e).map Prod.snd).getD (valueAfter effect b es) := by
  simp [valueAfter]

/-- The invariant of a history without overtaking: the last open change is the
value's last change, and without open changes the copy is up to date. -/
structure Inv (changes reports : ε → Option (I × β)) (b : β) (es : List ε) : Prop where
  last : ∀ older x, unreported changes reports es = older ++ [x] → x.2 = valueAfter changes b es
  closed : unreported changes reports es = [] →
    valueAfter changes b es = valueAfter reports b es

theorem inv_change (hc : changes e = some x) :
    Inv changes reports b (es ++ [e]) := by
  have hopen := unreported_change reports es hc
  refine ⟨fun older y hy => ?_, fun hnil => ?_⟩
  · rw [hopen] at hy
    obtain ⟨_, hx⟩ := List.append_inj' hy rfl
    cases hx
    simp [valueAfter, hc]
  · rw [hopen] at hnil
    simp at hnil

theorem Inv.report (hinv : Inv changes reports b es) (hc : changes e = none)
    (hr : reports e = some x) (hjust : Justified changes reports es e)
    (hturn : InTurn changes reports es e) : Inv changes reports b (es ++ [e]) := by
  have hopen := unreported_report es hc hr
  have hsame : valueAfter changes b (es ++ [e]) = valueAfter changes b es := by
    simp [valueAfter, hc]
  have hnew : valueAfter reports b (es ++ [e]) = x.2 := by simp [valueAfter, hr]
  have hmem : x ∈ unreported changes reports es := hjust x hr
  rcases List.eq_nil_or_concat' (unreported changes reports es) with hnil | ⟨older, z, hz⟩
  · rw [hnil] at hmem
    cases hmem
  have hlast := hinv.last older z hz
  by_cases hzx : z = x
  · -- the report is about the last change, so all open changes are to its value
    subst hzx
    have hall : ∀ y ∈ unreported changes reports es, y.2 = z.2 := by
      intro y hy
      rw [hz] at hy
      rcases List.mem_append.mp hy with hold | heq
      · exact hturn z hr older [] hz y hold
      · rw [List.mem_singleton.mp heq]
    refine ⟨fun older' y hy => ?_, fun _ => ?_⟩
    · have hyopen : y ∈ unreported changes reports (es ++ [e]) := by simp [hy]
      rw [hopen] at hyopen
      rw [hsame, hall y (List.mem_filter.mp hyopen).1, hlast]
    · rw [hsame, hnew, hlast]
  · have hkept : unreported changes reports (es ++ [e]) = older.filter (· ≠ x) ++ [z] := by
      rw [hopen, hz, List.filter_append]
      simp [hzx]
    refine ⟨fun older' y hy => ?_, fun hnil => ?_⟩
    · rw [hkept] at hy
      obtain ⟨_, hyz⟩ := List.append_inj' hy rfl
      cases hyz
      rw [hsame, hlast]
    · rw [hkept] at hnil
      simp at hnil

theorem Inv.other (hinv : Inv changes reports b es) (hc : changes e = none)
    (hr : reports e = none) : Inv changes reports b (es ++ [e]) := by
  have hopen := unreported_other es hc hr
  constructor
  · intro older x hx
    rw [hopen] at hx
    simpa [valueAfter, hc] using hinv.last older x hx
  · intro hnil
    rw [hopen] at hnil
    simpa [valueAfter, hc, hr] using hinv.closed hnil

theorem inv_of_inTurn (hone : ∀ e ∈ es, changes e = none ∨ reports e = none)
    (hjust : EveryStep (Justified changes reports) es)
    (hturn : EveryStep (InTurn changes reports) es) : Inv changes reports b es := by
  induction es using List.reverseRecOn with
  | nil => exact ⟨fun older x h => by simp at h, fun _ => rfl⟩
  | append_singleton es e ih =>
      obtain ⟨hjust, hjustLast⟩ := everyStep_snoc.mp hjust
      obtain ⟨hturn, hturnLast⟩ := everyStep_snoc.mp hturn
      have hinv := ih (fun e' he' => hone e' (by simp [he'])) hjust hturn
      cases hc : changes e with
      | some x => exact inv_change hc
      | none =>
          cases hr : reports e with
          | some x => exact hinv.report hc hr hjustLast hturnLast
          | none => exact hinv.other hc hr

/-- **When no report overtakes an older change to another value, the copy is up
to date whenever every change has been reported.** -/
theorem valueAfter_eq (hone : ∀ e ∈ es, changes e = none ∨ reports e = none)
    (hjust : EveryStep (Justified changes reports) es)
    (hturn : EveryStep (InTurn changes reports) es)
    (hall : unreported changes reports es = []) :
    valueAfter changes b es = valueAfter reports b es :=
  (inv_of_inTurn hone hjust hturn).closed hall

end Reports
