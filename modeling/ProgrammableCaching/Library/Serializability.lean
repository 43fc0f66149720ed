import Mathlib.Data.List.Perm.Basic
import Mathlib.Data.List.Pairwise
import Mathlib.Logic.Relation
import Mathlib.Tactic.Common

/-! Interleaved steps of several requests. Where the order of the conflicting
steps does not go round in a circle, the requests can as well be carried out one
after the other. -/

namespace Serializability

variable {R S σ O : Type*}

/-! ## Schedules -/

section

variable (apply : S → σ → σ)

/-- The state after the steps of a schedule. Each step belongs to a request. -/
def final (x : σ) (l : List (R × S)) : σ := l.foldl (fun x e => apply e.2 x) x

variable [DecidableEq R] (out : S → σ → O)

/-- What the steps of the request `r` see. -/
def seen (r : R) : σ → List (R × S) → List O
  | _, [] => []
  | x, e :: l => (if e.1 = r then [out e.2 x] else []) ++ seen r (apply e.2 x) l

/-- From every state, both schedules lead to the same one, and each request
sees the same. -/
def Same (l l' : List (R × S)) : Prop :=
  ∀ x, final apply x l = final apply x l' ∧ ∀ r, seen apply out r x l = seen apply out r x l'

/-- Which of the two steps is first makes no difference. -/
structure Independent (a b : S) : Prop where
  comm : ∀ x, apply b (apply a x) = apply a (apply b x)
  left : ∀ x, out a (apply b x) = out a x
  right : ∀ x, out b (apply a x) = out b x

end

/-- The steps of the request `r`. -/
def stepsOf [DecidableEq R] (r : R) (l : List (R × S)) : List (R × S) := l.filter fun e => e.1 = r

/-- The schedule in which the requests have their steps one after the other. -/
def serial [DecidableEq R] (order : List R) (l : List (R × S)) : List (R × S) :=
  order.flatMap fun r => stepsOf r l

/-- A step of `a` comes before a step of `b` that it conflicts with. -/
def Precedes (conflict : S → S → Prop) (l : List (R × S)) (a b : R) : Prop :=
  a ≠ b ∧ ∃ s t, [(a, s), (b, t)].Sublist l ∧ conflict s t

/-- No request precedes itself through others. -/
def Acyclic (conflict : S → S → Prop) (l : List (R × S)) : Prop :=
  ∀ r, ¬ Relation.TransGen (Precedes conflict l) r r

/-! ## Equivalence of schedules -/

section Same

variable {apply : S → σ → σ} {l l' l'' : List (R × S)}

@[simp] theorem final_nil (x : σ) : final apply x ([] : List (R × S)) = x := rfl

@[simp] theorem final_cons (x : σ) (e : R × S) :
    final apply x (e :: l) = final apply (apply e.2 x) l := rfl

theorem final_append (x : σ) : final apply x (l ++ l') = final apply (final apply x l) l' :=
  List.foldl_append ..

/-- Which request a step belongs to makes no difference to the state. -/
theorem final_eq_foldl (x : σ) :
    final apply x l = (l.map Prod.snd).foldl (fun x s => apply s x) x := by
  rw [List.foldl_map, final]

variable [DecidableEq R] {out : S → σ → O}

@[simp] theorem seen_nil (r : R) (x : σ) : seen apply out r x [] = [] := rfl

@[simp] theorem seen_cons (r : R) (x : σ) (e : R × S) : seen apply out r x (e :: l) =
    (if e.1 = r then [out e.2 x] else []) ++ seen apply out r (apply e.2 x) l := rfl

theorem seen_append (r : R) (x : σ) : seen apply out r x (l ++ l') =
    seen apply out r x l ++ seen apply out r (final apply x l) l' := by
  induction l generalizing x with
  | nil => rfl
  | cons e l ih => simp [ih]

theorem seen_of_forall_ne {r : R} (x : σ) (h : ∀ e ∈ l, e.1 ≠ r) : seen apply out r x l = [] := by
  induction l generalizing x with
  | nil => rfl
  | cons e l ih => simp [h e (by simp), ih _ fun e' he' => h e' (by simp [he'])]

theorem Same.refl (l : List (R × S)) : Same apply out l l := fun _ => ⟨rfl, fun _ => rfl⟩

theorem Same.trans (h : Same apply out l l') (h' : Same apply out l' l'') :
    Same apply out l l'' := fun x =>
  ⟨(h x).1.trans (h' x).1, fun r => ((h x).2 r).trans ((h' x).2 r)⟩

theorem Same.cons (h : Same apply out l l') (e : R × S) : Same apply out (e :: l) (e :: l') :=
  fun x => ⟨(h (apply e.2 x)).1, fun r => by simp only [seen_cons, (h (apply e.2 x)).2 r]⟩

theorem Same.append_left (h : Same apply out l l') (p : List (R × S)) :
    Same apply out (p ++ l) (p ++ l') := by
  induction p with
  | nil => exact h
  | cons e p ih => exact ih.cons e

/-- Neighbouring independent steps of two requests change places. -/
theorem same_swap {e f : R × S} (hne : e.1 ≠ f.1) (h : Independent apply out e.2 f.2) :
    Same apply out (e :: f :: l) (f :: e :: l) := by
  intro x
  refine ⟨by simp [h.comm], fun r => ?_⟩
  simp only [seen_cons, h.comm, h.left, h.right]
  by_cases her : e.1 = r
  · subst her
    simp [hne.symm]
  · simp [her]

/-- A step goes past steps of other requests that are all independent of it. -/
theorem same_past {e : R × S} {p : List (R × S)}
    (h : ∀ f ∈ p, e.1 ≠ f.1 ∧ Independent apply out e.2 f.2) :
    Same apply out (e :: (p ++ l)) (p ++ e :: l) := by
  induction p with
  | nil => exact .refl _
  | cons f p ih =>
      have hhead := h f (by simp)
      exact (same_swap hhead.1 hhead.2).trans ((ih fun g hg => h g (by simp [hg])).cons f)

end Same

/-! ## Which request can be first -/

variable {conflict : S → S → Prop} {l l' : List (R × S)}

theorem Precedes.mono {a b : R} (h : Precedes conflict l a b) (hsub : l.Sublist l') :
    Precedes conflict l' a b := by
  obtain ⟨hne, s, t, hst, hc⟩ := h
  exact ⟨hne, s, t, hst.trans hsub, hc⟩

theorem Acyclic.mono (h : Acyclic conflict l') (hsub : l.Sublist l') : Acyclic conflict l :=
  fun r hr => h r (hr.lift id fun _ _ hab => hab.mono hsub)

/-- It is enough that the requests can be numbered so that conflicting steps
come in the order of the numbers. -/
theorem acyclic_of_rank (rank : R → ℕ)
    (h : l.Pairwise fun e f => e.1 ≠ f.1 → conflict e.2 f.2 → rank e.1 < rank f.1) :
    Acyclic conflict l := by
  have hlt : ∀ a b, Relation.TransGen (Precedes conflict l) a b → rank a < rank b := by
    intro a b hab
    induction hab with
    | single hone =>
        obtain ⟨hne, s, t, hst, hc⟩ := hone
        exact List.pairwise_iff_forall_sublist.mp h hst hne hc
    | tail _ hone ih =>
        obtain ⟨hne, s, t, hst, hc⟩ := hone
        exact Nat.lt_trans ih (List.pairwise_iff_forall_sublist.mp h hst hne hc)
  exact fun r hr => Nat.lt_irrefl _ (hlt r r hr)

/-- A relation that does not go round in a circle has a first element on every
list that is not empty. -/
theorem exists_first {r : R → R → Prop} (h : ∀ a, ¬ Relation.TransGen r a a) {rs : List R}
    (hrs : rs ≠ []) : ∃ a ∈ rs, ∀ b ∈ rs, ¬ Relation.TransGen r b a := by
  induction rs with
  | nil => exact absurd rfl hrs
  | cons a rs ih =>
      by_cases hnil : rs = []
      · subst hnil
        exact ⟨a, by simp, by simpa using h a⟩
      · obtain ⟨c, hc, hfirst⟩ := ih hnil
        by_cases hac : Relation.TransGen r a c
        · refine ⟨a, by simp, fun b hb hba => ?_⟩
          rcases List.mem_cons.mp hb with rfl | hb
          · exact h b hba
          · exact hfirst b hb (hba.trans hac)
        · refine ⟨c, by simp [hc], fun b hb hbc => ?_⟩
          rcases List.mem_cons.mp hb with rfl | hb
          · exact hac hbc
          · exact hfirst b hb hbc

section Main

variable [DecidableEq R] {apply : S → σ → σ} {out : S → σ → O}

theorem stepsOf_cons_self {r : R} {e : R × S} (h : e.1 = r) :
    stepsOf r (e :: l) = e :: stepsOf r l := by
  simp [stepsOf, h]

theorem stepsOf_cons_of_ne {r : R} {e : R × S} (h : e.1 ≠ r) :
    stepsOf r (e :: l) = stepsOf r l := by
  simp [stepsOf, h]

theorem stepsOf_append (r : R) : stepsOf r (l ++ l') = stepsOf r l ++ stepsOf r l' :=
  List.filter_append ..

/-- At most one more step of the request `r'`, as its share of the schedule. -/
theorem made_toList (r r' : R) (o : Option S) :
    (stepsOf r (o.toList.map fun s => (r', s))).map Prod.snd = if r' = r then o.toList else [] := by
  cases o with
  | none => simp [stepsOf]
  | some s => by_cases h : r' = r <;> simp [stepsOf, h]

theorem seen_toList (r r' : R) (o : Option S) (x : σ) :
    seen apply out r x (o.toList.map fun s => (r', s)) =
      if r' = r then o.toList.map fun s => out s x else [] := by
  cases o with
  | none => simp
  | some s => by_cases h : r' = r <;> simp [h]

theorem mem_stepsOf {r : R} {e : R × S} : e ∈ stepsOf r l ↔ e ∈ l ∧ e.1 = r := by
  simp [stepsOf]

theorem stepsOf_others {r r' : R} (h : r' ≠ r) :
    stepsOf r' (l.filter fun e => e.1 ≠ r) = stepsOf r' l := by
  rw [stepsOf, List.filter_filter, stepsOf]
  refine List.filter_congr fun e _ => ?_
  by_cases he : e.1 = r' <;> simp [he, h]

/-- A request that none of the others precedes may have all of its steps first. -/
theorem same_first (hind : ∀ s t, ¬ conflict s t → Independent apply out s t) {r : R}
    (h : ∀ b, ¬ Precedes conflict l b r) :
    Same apply out l (stepsOf r l ++ l.filter fun e => e.1 ≠ r) := by
  induction l with
  | nil => exact .refl _
  | cons e l ih =>
      have htail := ih fun b hb => h b (hb.mono (List.sublist_cons_self e l))
      by_cases he : e.1 = r
      · simpa [stepsOf_cons_self he, he] using htail.cons e
      · have hpast : ∀ f ∈ stepsOf r l, e.1 ≠ f.1 ∧ Independent apply out e.2 f.2 := by
          intro f hf
          obtain ⟨hmem, hfr⟩ := List.mem_filter.mp hf
          have hfr : f.1 = r := of_decide_eq_true hfr
          refine ⟨by rwa [hfr], hind _ _ fun hc => h e.1 ⟨he, e.2, f.2, ?_, hc⟩⟩
          rw [← hfr]
          exact (List.singleton_sublist.mpr hmem).cons_cons e
        simpa [stepsOf_cons_of_ne he, he] using (htail.cons e).trans (same_past hpast)

theorem Precedes.filter {r a b : R} (h : Precedes conflict l a b) (ha : a ≠ r) (hb : b ≠ r) :
    Precedes conflict (l.filter fun e => e.1 ≠ r) a b := by
  obtain ⟨hne, s, t, hst, hc⟩ := h
  exact ⟨hne, s, t, by simpa [ha, hb] using hst.filter fun e => decide (e.1 ≠ r), hc⟩

theorem serial_others {r : R} {order : List R} (h : r ∉ order) :
    serial order (l.filter fun e => e.1 ≠ r) = serial order l :=
  List.flatMap_congr fun _ hr' => stepsOf_others fun heq => h (heq ▸ hr')

/-- **Conflict serializability**: where no request precedes itself, the schedule
does what a serial one does, in which no request comes after one that it
precedes. -/
theorem exists_serial (hind : ∀ s t, ¬ conflict s t → Independent apply out s t)
    (h : Acyclic conflict l) {rs : List R} (hnodup : rs.Nodup) (hrs : ∀ e ∈ l, e.1 ∈ rs) :
    ∃ order : List R, order.Perm rs ∧ order.Pairwise (fun a b => ¬ Precedes conflict l b a) ∧
      Same apply out l (serial order l) := by
  induction hn : rs.length generalizing rs l with
  | zero =>
      obtain rfl := List.eq_nil_of_length_eq_zero hn
      have hl : l = [] := List.eq_nil_iff_forall_not_mem.mpr fun e he => by
        simpa using hrs e he
      subst hl
      exact ⟨[], .nil, .nil, .refl _⟩
  | succ n ih =>
      have hne : rs ≠ [] := by
        rintro rfl
        cases hn
      obtain ⟨r, hr, hfirst⟩ := exists_first h hne
      have hpre : ∀ b, ¬ Precedes conflict l b r := by
        intro b hb
        obtain ⟨_, s, t, hst, _⟩ := id hb
        exact hfirst b (hrs (b, s) (hst.subset (by simp))) (.single hb)
      -- the first request has its steps first, and the others follow without it
      have hothers : ∀ e ∈ l.filter fun e => e.1 ≠ r, e.1 ∈ rs.erase r := by
        intro e he
        obtain ⟨hmem, her⟩ := List.mem_filter.mp he
        exact (List.mem_erase_of_ne (of_decide_eq_true her)).mpr (hrs e hmem)
      obtain ⟨order, hperm, hpair, hsame⟩ := ih (h.mono List.filter_sublist) (hnodup.erase r)
        hothers (by rw [List.length_erase_of_mem hr, hn, Nat.add_sub_cancel])
      have hnot : r ∉ order := fun hmem => hnodup.not_mem_erase (hperm.mem_iff.mp hmem)
      refine ⟨r :: order, (hperm.cons r).trans (List.perm_cons_erase hr).symm, ?_, ?_⟩
      · refine List.pairwise_cons.mpr ⟨fun b _ => hpre b, ?_⟩
        refine hpair.imp_of_mem fun {a b} ha hb hab hba => hab (hba.filter ?_ ?_)
        · exact fun heq => hnot (heq ▸ hb)
        · exact fun heq => hnot (heq ▸ ha)
      · rw [serial_others hnot] at hsame
        exact (same_first hind hpre).trans (hsame.append_left (stepsOf r l))

/-- Where steps of different requests never conflict, every serial schedule does
what the schedule does. -/
theorem same_serial (hind : ∀ s t, ¬ conflict s t → Independent apply out s t)
    (h : ∀ a b, ¬ Precedes conflict l a b) {order : List R} (hnodup : order.Nodup)
    (horder : ∀ e ∈ l, e.1 ∈ order) : Same apply out l (serial order l) := by
  induction order generalizing l with
  | nil =>
      have hl : l = [] := List.eq_nil_iff_forall_not_mem.mpr fun e he => by
        simpa using horder e he
      subst hl
      exact .refl _
  | cons r order ih =>
      obtain ⟨hr, hnodup⟩ := List.nodup_cons.mp hnodup
      have hothers : ∀ e ∈ l.filter fun e => e.1 ≠ r, e.1 ∈ order := by
        intro e he
        obtain ⟨hmem, her⟩ := List.mem_filter.mp he
        exact (List.mem_cons.mp (horder e hmem)).resolve_left (of_decide_eq_true her)
      have hsame := ih (fun a b hab => h a b (hab.mono List.filter_sublist)) hnodup hothers
      rw [serial_others hr] at hsame
      exact (same_first hind fun b => h b r).trans (hsame.append_left (stepsOf r l))

theorem serial_append (order order' : List R) :
    serial (order ++ order') l = serial order l ++ serial order' l :=
  List.flatMap_append ..

theorem ne_of_mem_serial {r : R} {order : List R} (h : r ∉ order) :
    ∀ e ∈ serial order l, e.1 ≠ r := by
  intro e he heq
  obtain ⟨r', hr', hmem⟩ := List.mem_flatMap.mp he
  rw [← heq, (mem_stepsOf.mp hmem).2] at h
  exact h hr'

/-- In a serial schedule the steps of a request see what those of the requests
before it have left. -/
theorem seen_serial {r : R} {pre post : List R} (h : (pre ++ r :: post).Nodup) (x : σ) :
    seen apply out r x (serial (pre ++ r :: post) l) =
      seen apply out r (final apply x (serial pre l)) (stepsOf r l) := by
  have hpre : r ∉ pre := fun hmem =>
    (List.nodup_append.mp h).2.2 r hmem r (by simp) rfl
  have hpost : r ∉ post := (List.nodup_cons.mp (List.nodup_append.mp h).2.1).1
  have hcons : serial (r :: post) l = stepsOf r l ++ serial post l := rfl
  rw [serial_append, hcons, seen_append, seen_append, seen_of_forall_ne _ (ne_of_mem_serial hpre),
    seen_of_forall_ne _ (ne_of_mem_serial hpost), List.nil_append, List.append_nil]

end Main

end Serializability
