import ProgrammableCaching.Library.Pools
import ProgrammableCaching.Library.Replicas

/-! One list of operations executed any number of times, by threads that take
turns. A copy is two steps, so that other threads can change its source between
them and its destination before it is written; a thread ends by reading a key at
a fixed address.

The question is when replaying a list cannot lose a value that the first
execution finds. -/

namespace Replays

open Replicas Pools

variable {A K V : Type*}

inductive Thread (A K V : Type*)
  | acting (todo : List (Op A K V))
  | finished (x : V)

/-- Some interleaving lets the copy between `pre` and `post` find its source
without a value: the list removes the source, or the source starts without one
and nothing before the copy writes it, or a copy that may itself find nothing
writes it. -/
inductive Tainted (st₀ : Stores A K V) (k : K) (ops : List (Op A K V)) :
    List (Op A K V) → A → A → List (Op A K V) → Prop
  | removed {pre post : List (Op A K V)} {dest source : A} :
      ops = pre ++ .copy dest source k :: post → .remove source k ∈ ops →
        Tainted st₀ k ops pre dest source post
  | absent {pre post : List (Op A K V)} {dest source : A} :
      ops = pre ++ .copy dest source k :: post → st₀ source k = none →
        (∀ op ∈ pre, op.cell ≠ (source, k)) → Tainted st₀ k ops pre dest source post
  | chain {pre post pre' post' : List (Op A K V)} {dest source source' : A} :
      ops = pre ++ .copy dest source k :: post → Tainted st₀ k ops pre' source source' post' →
        Tainted st₀ k ops pre dest source post

theorem Tainted.ops_eq {st₀ : Stores A K V} {k : K} {ops pre post : List (Op A K V)}
    {dest source : A} (h : Tainted st₀ k ops pre dest source post) :
    ops = pre ++ .copy dest source k :: post := by
  cases h with
  | removed hops | absent hops | chain hops => exact hops

/-- The list never removes the key where it is read, and what a copy without a
value may leave behind is written again by a later operation of the list, and is
never where the key is read. -/
structure Lasting (st₀ : Stores A K V) (g : A) (k : K) (ops : List (Op A K V)) : Prop where
  kept : .remove g k ∉ ops
  covered : ∀ pre dest source post, Tainted st₀ k ops pre dest source post →
    dest ≠ g ∧ ∃ op ∈ post, op.cell = (dest, k)

/-- Nothing takes the value of the key away from `a`. -/
def Clean (st₀ : Stores A K V) (k : K) (ops : List (Op A K V)) (a : A) : Prop :=
  .remove a k ∉ ops ∧ ∀ pre source post, ¬ Tainted st₀ k ops pre a source post

section Steps

variable [DecidableEq A] [DecidableEq K]

/-- One step of a thread that reads the key `k` at `g` in the end. A copy that
has fetched goes on as a put. -/
inductive ThreadStep (blank : V) (g : A) (k : K) :
    Stores A K V → Thread A K V → Unit → Stores A K V → Thread A K V → Prop
  | put {st : Stores A K V} {a : A} {k' : K} {x : V} {todo : List (Op A K V)} :
      ThreadStep blank g k st (.acting (.put a k' x :: todo)) () (set st a k' (some x))
        (.acting todo)
  | remove {st : Stores A K V} {a : A} {k' : K} {todo : List (Op A K V)} :
      ThreadStep blank g k st (.acting (.remove a k' :: todo)) () (set st a k' none)
        (.acting todo)
  | fetch {st : Stores A K V} {dest source : A} {k' : K} {todo : List (Op A K V)} :
      ThreadStep blank g k st (.acting (.copy dest source k' :: todo)) () st
        (.acting (.put dest k' ((st source k').getD blank) :: todo))
  | read {st : Stores A K V} :
      ThreadStep blank g k st (.acting []) () st (.finished ((st g k).getD blank))

theorem ThreadStep.functional {blank : V} {g : A} {k : K} {st st' st'' : Stores A K V}
    {t t' t'' : Thread A K V} (h : ThreadStep blank g k st t () st' t')
    (h' : ThreadStep blank g k st t () st'' t'') : st' = st'' ∧ t' = t'' := by
  cases h with
  | put => cases h'; exact ⟨rfl, rfl⟩
  | remove => cases h'; exact ⟨rfl, rfl⟩
  | fetch => cases h'; exact ⟨rfl, rfl⟩
  | read => cases h'; exact ⟨rfl, rfl⟩

/-- Threads that execute `ops` may join at any time. -/
def Replay (blank : V) (g : A) (k : K) (ops : List (Op A K V)) :
    Pool (Stores A K V) (Thread A K V) → Pool (Stores A K V) (Thread A K V) → Prop :=
  Leads (· = .acting ops) (ThreadStep blank g k)

/-- Whatever the interleaving, every thread reads `v`, and when all threads are
finished `v` is still what the addresses hold. -/
def Safe (blank : V) (st₀ : Stores A K V) (g : A) (k : K) (v : V) (ops : List (Op A K V)) : Prop :=
  ∀ P, Replay blank g k ops ⟨st₀, []⟩ P →
    (∀ x, .finished x ∈ P.threads → x = v) ∧
      ((∀ t ∈ P.threads, ∃ x, t = .finished x) → CommonValue P.state k v)

end Steps

/-! ## A lasting list keeps the value -/

section Sufficient

/-- A thread has executed `pre` of the list and has `todo` left, where a copy it
is in the middle of has fetched `v` or is tainted. -/
def At (st₀ : Stores A K V) (k : K) (v : V) (ops pre todo : List (Op A K V)) : Prop :=
  ops = pre ++ todo ∨
    ∃ dest source k' x post, todo = .put dest k' x :: post ∧
      ops = pre ++ .copy dest source k' :: post ∧
      (k' = k → x = v ∨ Tainted st₀ k ops pre dest source post)

/-- What a thread still has to execute. -/
def Thread.todo : Thread A K V → List (Op A K V)
  | acting todo => todo
  | finished _ => []

/-- Some thread is still to write the entry. -/
def Pending (ts : List (Thread A K V)) (b : A) (k : K) : Prop :=
  ∃ t ∈ ts, ∃ op ∈ t.todo, op.cell = (b, k)

/-- The invariant of a replay of a lasting list. -/
structure Inv (st₀ : Stores A K V) (g : A) (k : K) (v : V) (ops : List (Op A K V))
    (P : Pool (Stores A K V) (Thread A K V)) : Prop where
  clean : ∀ a, Clean st₀ k ops a → P.state a k = some v ∨ P.state a k = none ∧ st₀ a k = none
  acting : ∀ (i : ℕ) todo, P.threads[i]? = some (Thread.acting todo) →
    ∃ pre, At st₀ k v ops pre todo ∧
      ∀ a, Clean st₀ k ops a → (∃ op ∈ pre, op.cell = (a, k)) → P.state a k = some v
  finished : ∀ (i : ℕ) x, P.threads[i]? = some (Thread.finished x) → x = v ∧ P.state g k = some v
  covered : ∀ b x, P.state b k = some x → x = v ∨ Pending P.threads b k
  unstarted : P.threads = [] → ∃ a, P.state a k = some v

variable {st₀ : Stores A K V} {g : A} {k : K} {v : V} {ops pre todo : List (Op A K V)}

/-- A clean address is only written with `v`. -/
theorem At.put_clean (hputs : ∀ op ∈ ops, ¬ op.IsPut) {a : A} {k' : K} {x : V}
    (hat : At st₀ k v ops pre (.put a k' x :: todo)) (ha : Clean st₀ k ops a) (hk : k' = k) :
    x = v := by
  rcases hat with heq | ⟨dest, source, k'', x', post, htodo, heq, hx⟩
  · exact absurd trivial (hputs (.put a k' x) (by simp [heq]))
  · cases htodo
    rcases hx hk with hv | htaint
    · exact hv
    · exact absurd htaint (ha.2 _ _ _)

theorem At.remove_mem {a : A} {k' : K} (hat : At st₀ k v ops pre (.remove a k' :: todo)) :
    .remove a k' ∈ ops := by
  rcases hat with heq | ⟨_, _, _, _, _, htodo, _⟩
  · simp [heq]
  · cases htodo

theorem At.copy_eq {dest source : A} {k' : K}
    (hat : At st₀ k v ops pre (.copy dest source k' :: todo)) :
    ops = pre ++ .copy dest source k' :: todo := by
  rcases hat with heq | ⟨_, _, _, _, _, htodo, _⟩
  · exact heq
  · cases htodo

theorem At.nil_eq (hat : At st₀ k v ops pre []) : ops = pre := by
  rcases hat with heq | ⟨_, _, _, _, _, htodo, _⟩
  · simpa using heq
  · cases htodo

/-- Past its first operation the thread has executed one more operation, of the
same cell. -/
theorem At.next {op : Op A K V} (hcopy : ∀ dest source k', op ≠ .copy dest source k')
    (hat : At st₀ k v ops pre (op :: todo)) :
    ∃ op', op'.cell = op.cell ∧ At st₀ k v ops (pre ++ [op']) todo := by
  rcases hat with heq | ⟨dest, source, k', x, post, htodo, heq, _⟩
  · exact ⟨op, rfl, .inl (by simp [heq])⟩
  · cases htodo
    exact ⟨.copy dest source k', rfl, .inl (by simp [heq])⟩

variable {P : Pool (Stores A K V) (Thread A K V)} {st : Stores A K V}
  {ts : List (Thread A K V)} {i : ℕ} {b : A}

theorem Pending.append (h : Pending ts b k) (t : Thread A K V) : Pending (ts ++ [t]) b k := by
  obtain ⟨t', ht', hop⟩ := h
  exact ⟨t', List.mem_append_left _ ht', hop⟩

/-- An entry that thread `i` does not finish with stays pending. -/
theorem Pending.set {t t' : Thread A K V} (h : Pending ts b k) (hi : ts[i]? = some t)
    (hkeep : (∃ op ∈ t.todo, op.cell = (b, k)) → ∃ op ∈ t'.todo, op.cell = (b, k)) :
    Pending (ts.set i t') b k := by
  obtain ⟨u, hu, hop⟩ := h
  obtain ⟨j, hj⟩ := List.mem_iff_getElem?.mp hu
  by_cases hji : j = i
  · subst hji
    obtain rfl : u = t := Option.some.inj (hj.symm.trans hi)
    exact ⟨t', List.mem_of_getElem? (getElem?_set_same t' hi), hkeep hop⟩
  · rw [← List.getElem?_set_ne (fun h => hji h.symm) (a := t')] at hj
    exact ⟨u, List.mem_of_getElem? hj, hop⟩

theorem inv_start (hv : CommonValue st₀ k v) : Inv st₀ g k v ops ⟨st₀, []⟩ where
  clean a _ := by
    cases ha : st₀ a k with
    | none => exact .inr ⟨ha, rfl⟩
    | some x => exact .inl (by rw [hv.2 a x ha] at ha; exact ha)
  acting i todo hi := by simp at hi
  finished i x hi := by simp at hi
  covered b x hb := .inl (hv.2 b x hb)
  unstarted _ := hv.1

theorem Inv.spawn (hinv : Inv st₀ g k v ops ⟨st, ts⟩) :
    Inv st₀ g k v ops ⟨st, ts ++ [.acting ops]⟩ where
  clean := hinv.clean
  acting i todo hi := by
    rcases getElem?_append_cases hi with ⟨_, ht⟩ | hold
    · cases ht
      exact ⟨[], .inl rfl, fun a _ ⟨op, hop, _⟩ => by cases hop⟩
    · exact hinv.acting i todo hold
  finished i x hi := by
    rcases getElem?_append_cases hi with ⟨_, ht⟩ | hold
    · cases ht
    · exact hinv.finished i x hold
  covered b x hb := (hinv.covered b x hb).imp_right fun h => h.append _
  unstarted h := absurd h (List.append_ne_nil_of_right_ne_nil _ (List.cons_ne_nil _ _))

theorem Lasting.clean (hlasting : Lasting st₀ g k ops) : Clean st₀ k ops g :=
  ⟨hlasting.kept, fun _ _ _ ht => (hlasting.covered _ _ _ _ ht).1 rfl⟩

/-- What a copy fetches of the key is `v`, or the copy is tainted. -/
theorem Inv.fetched (hinv : Inv st₀ g k v ops P) {blank : V} {dest source : A}
    (hops : ops = pre ++ .copy dest source k :: todo)
    (hdone : ∀ a, Clean st₀ k ops a → (∃ op ∈ pre, op.cell = (a, k)) → P.state a k = some v) :
    (P.state source k).getD blank = v ∨ Tainted st₀ k ops pre dest source todo := by
  by_cases hclean : Clean st₀ k ops source
  · rcases hinv.clean source hclean with hv | ⟨_, hnone⟩
    · exact .inl (by simp [hv])
    · by_cases hpre : ∃ op ∈ pre, op.cell = (source, k)
      · exact .inl (by simp [hdone source hclean hpre])
      · exact .inr (.absent hops hnone fun op hop hcell => hpre ⟨op, hop, hcell⟩)
  · right
    by_cases hremove : .remove source k ∈ ops
    · exact .removed hops hremove
    · have hchain : ∃ pre' source' post', Tainted st₀ k ops pre' source source' post' := by
        by_contra hnone
        exact hclean ⟨hremove, fun pre' source' post' ht => hnone ⟨pre', source', post', ht⟩⟩
      obtain ⟨_, _, _, ht⟩ := hchain
      exact .chain hops ht

/-- A fetch keeps the invariant. -/
theorem Inv.fetch (hinv : Inv st₀ g k v ops ⟨st, ts⟩) {blank : V} {dest source : A} {k' : K}
    (hi : ts[i]? = some (.acting (.copy dest source k' :: todo))) :
    Inv st₀ g k v ops
      ⟨st, ts.set i (.acting (.put dest k' ((st source k').getD blank) :: todo))⟩ where
  clean := hinv.clean
  acting j todo' hj := by
    rcases getElem?_set_cases hi hj with ⟨_, ht⟩ | ⟨_, hold⟩
    · cases ht
      obtain ⟨pre, hat, hdone⟩ := hinv.acting i _ hi
      refine ⟨pre, .inr ⟨dest, source, k', _, todo, rfl, hat.copy_eq, ?_⟩, hdone⟩
      rintro rfl
      exact hinv.fetched hat.copy_eq hdone
    · exact hinv.acting j todo' hold
  finished j x hj := by
    rcases getElem?_set_cases hi hj with ⟨_, ht⟩ | ⟨_, hold⟩
    · cases ht
    · exact hinv.finished j x hold
  covered b x hb := by
    refine (hinv.covered b x hb).imp_right fun h => h.set hi ?_
    rintro ⟨op, hop, hcell⟩
    rcases List.mem_cons.mp hop with rfl | hmem
    · exact ⟨_, List.mem_cons_self, hcell⟩
    · exact ⟨op, List.mem_cons_of_mem _ hmem, hcell⟩
  unstarted h := absurd h (set_ne_nil _ hi)

section Writes

variable [DecidableEq A] [DecidableEq K] {blank : V}

/-- What a thread does with a clean entry: it leaves the entry alone, or its
operation is about the entry and stores `v`. -/
theorem apply_clean (blank : V) (hputs : ∀ op ∈ ops, ¬ op.IsPut) {op : Op A K V}
    (hcopy : ∀ dest source k', op ≠ .copy dest source k') (hat : At st₀ k v ops pre (op :: todo))
    {a : A} (ha : Clean st₀ k ops a) :
    op.cell ≠ (a, k) ∧ apply blank st op a k = st a k ∨
      op.cell = (a, k) ∧ apply blank st op a k = some v := by
  by_cases hcell : op.cell = (a, k)
  · refine .inr ⟨hcell, ?_⟩
    cases op with
    | put a' k' x =>
        obtain ⟨rfl, rfl⟩ := Prod.mk.inj hcell
        have hx := hat.put_clean hputs ha rfl
        simp [apply, hx]
    | remove a' k' =>
        obtain ⟨rfl, rfl⟩ := Prod.mk.inj hcell
        exact absurd hat.remove_mem ha.1
    | copy dest source k' => exact absurd rfl (hcopy dest source k')
  · exact .inl ⟨hcell, apply_of_ne op hcell⟩

/-- A thread of a lasting list that leaves something else than `v` is still to
write there again. -/
theorem apply_covered (hputs : ∀ op ∈ ops, ¬ op.IsPut) (hlasting : Lasting st₀ g k ops)
    {op : Op A K V} (hcopy : ∀ dest source k', op ≠ .copy dest source k')
    (hat : At st₀ k v ops pre (op :: todo)) (hcell : op.cell = (b, k)) {x : V}
    (hx : apply blank st op b k = some x) : x = v ∨ ∃ op' ∈ todo, op'.cell = (b, k) := by
  cases op with
  | copy dest source k' => exact absurd rfl (hcopy dest source k')
  | remove a k' =>
      obtain ⟨rfl, rfl⟩ := Prod.mk.inj hcell
      simp [apply] at hx
  | put a k' y =>
      obtain ⟨rfl, rfl⟩ := Prod.mk.inj hcell
      have hy : y = x := by simpa [apply] using hx
      subst hy
      rcases hat with heq | ⟨dest, source, k', y', post, htodo, heq, hy⟩
      · exact absurd trivial (hputs (.put a k' y) (by simp [heq]))
      · cases htodo
        exact (hy rfl).imp_right fun htaint => (hlasting.covered _ _ _ _ htaint).2

/-- A put or a removal of a thread keeps the invariant. -/
theorem Inv.write (blank : V) (hputs : ∀ op ∈ ops, ¬ op.IsPut) (hlasting : Lasting st₀ g k ops)
    (hinv : Inv st₀ g k v ops ⟨st, ts⟩) {op : Op A K V}
    (hcopy : ∀ dest source k', op ≠ .copy dest source k')
    (hi : ts[i]? = some (.acting (op :: todo))) :
    Inv st₀ g k v ops ⟨apply blank st op, ts.set i (.acting todo)⟩ := by
  obtain ⟨pre, hat, hdone⟩ := hinv.acting i _ hi
  -- a clean entry that holds `v` still does
  have hkeep : ∀ a, Clean st₀ k ops a → st a k = some v → apply blank st op a k = some v := by
    intro a ha hv
    rcases apply_clean blank hputs hcopy hat ha with ⟨_, hsame⟩ | ⟨_, hnew⟩
    · exact hsame.trans hv
    · exact hnew
  refine ⟨fun a ha => ?_, fun j todo' hj => ?_, fun j x hj => ?_, fun b x hb => ?_,
    fun h => absurd h (set_ne_nil _ hi)⟩
  · rcases apply_clean blank hputs hcopy hat ha with ⟨_, hsame⟩ | ⟨_, hnew⟩
    · show apply blank st op a k = _ ∨ apply blank st op a k = _ ∧ _
      rw [hsame]
      exact hinv.clean a ha
    · exact .inl hnew
  · rcases getElem?_set_cases hi hj with ⟨_, ht⟩ | ⟨_, hold⟩
    · cases ht
      obtain ⟨op', hcell', hat'⟩ := hat.next hcopy
      refine ⟨pre ++ [op'], hat', fun a ha ⟨o, ho, hocell⟩ => ?_⟩
      rcases List.mem_append.mp ho with hpre | hlast
      · exact hkeep a ha (hdone a ha ⟨o, hpre, hocell⟩)
      · obtain rfl := List.mem_singleton.mp hlast
        rcases apply_clean blank hputs hcopy hat ha with ⟨hne, _⟩ | ⟨_, hnew⟩
        · exact absurd (hcell'.symm.trans hocell) hne
        · exact hnew
    · obtain ⟨pre', hat', hdone'⟩ := hinv.acting j todo' hold
      exact ⟨pre', hat', fun a ha hex => hkeep a ha (hdone' a ha hex)⟩
  · rcases getElem?_set_cases hi hj with ⟨_, ht⟩ | ⟨_, hold⟩
    · cases ht
    · obtain ⟨hx, hgv⟩ := hinv.finished j x hold
      exact ⟨hx, hkeep g hlasting.clean hgv⟩
  · by_cases hcell : op.cell = (b, k)
    · refine (apply_covered hputs hlasting hcopy hat hcell hb).imp_right fun hpending => ?_
      exact ⟨_, List.mem_of_getElem? (getElem?_set_same _ hi), hpending⟩
    · have hb : st b k = some x := (apply_of_ne op hcell).symm.trans hb
      refine (hinv.covered b x hb).imp_right fun h => h.set hi ?_
      rintro ⟨o, ho, hocell⟩
      rcases List.mem_cons.mp ho with rfl | hmem
      · exact absurd hocell hcell
      · exact ⟨o, hmem, hocell⟩

/-- The final read keeps the invariant: it finds `v`. -/
theorem Inv.read (hlasting : Lasting st₀ g k ops) (hfirst : run blank st₀ ops g k = some v)
    (hinv : Inv st₀ g k v ops ⟨st, ts⟩) (hi : ts[i]? = some (.acting [])) :
    Inv st₀ g k v ops ⟨st, ts.set i (.finished ((st g k).getD blank))⟩ := by
  obtain ⟨pre, hat, hdone⟩ := hinv.acting i _ hi
  have hg : st g k = some v := by
    rcases hinv.clean g hlasting.clean with hv | ⟨_, hnone⟩
    · exact hv
    · obtain rfl := hat.nil_eq
      refine hdone g hlasting.clean ?_
      by_contra hno
      rw [run_of_untouched ops fun op hop hcell => hno ⟨op, hop, hcell⟩, hnone] at hfirst
      cases hfirst
  refine ⟨hinv.clean, fun j todo' hj => ?_, fun j x hj => ?_, fun b x hb => ?_,
    fun h => absurd h (set_ne_nil _ hi)⟩
  · rcases getElem?_set_cases hi hj with ⟨_, ht⟩ | ⟨_, hold⟩
    · cases ht
    · exact hinv.acting j todo' hold
  · rcases getElem?_set_cases hi hj with ⟨_, ht⟩ | ⟨_, hold⟩
    · cases ht
      exact ⟨by simp [hg], hg⟩
    · exact hinv.finished j x hold
  · refine (hinv.covered b x hb).imp_right fun h => h.set hi ?_
    rintro ⟨op, hop, _⟩
    cases hop

/-- The invariant holds along a replay of a lasting list. -/
theorem Inv.of_replay (hputs : ∀ op ∈ ops, ¬ op.IsPut) (hlasting : Lasting st₀ g k ops)
    (hv : CommonValue st₀ k v) (hfirst : run blank st₀ ops g k = some v)
    (h : Replay blank g k ops ⟨st₀, []⟩ P) : Inv st₀ g k v ops P := by
  induction h with
  | refl => exact inv_start hv
  | tail _ hstep hinv =>
      obtain ⟨e, hstep⟩ := hstep
      cases hstep with
      | spawn hp =>
          subst hp
          exact hinv.spawn
      | step hi hstep =>
          cases hstep with
          | put => exact hinv.write blank hputs hlasting (by simp) hi
          | remove => exact hinv.write blank hputs hlasting (by simp) hi
          | fetch => exact hinv.fetch hi
          | read => exact hinv.read hlasting hfirst hi

/-- A lasting list is safe. -/
theorem Lasting.safe (hputs : ∀ op ∈ ops, ¬ op.IsPut) (hlasting : Lasting st₀ g k ops)
    (hv : CommonValue st₀ k v) (hfirst : run blank st₀ ops g k = some v) :
    Safe blank st₀ g k v ops := by
  intro P h
  have hinv := Inv.of_replay hputs hlasting hv hfirst h
  have hreads : ∀ x, .finished x ∈ P.threads → x = v ∧ P.state g k = some v := by
    intro x hx
    obtain ⟨i, hi⟩ := List.mem_iff_getElem?.mp hx
    exact hinv.finished i x hi
  refine ⟨fun x hx => (hreads x hx).1, fun hall => ⟨?_, fun b x hb => ?_⟩⟩
  · cases hts : P.threads with
    | nil => exact hinv.unstarted hts
    | cons t _ =>
        have ht : t ∈ P.threads := by simp [hts]
        obtain ⟨x, rfl⟩ := hall t ht
        exact ⟨g, (hreads x ht).2⟩
  · rcases hinv.covered b x hb with hxv | ⟨t, ht, op, hop, _⟩
    · exact hxv
    · obtain ⟨y, rfl⟩ := hall t ht
      cases hop

end Writes

end Sufficient

/-! ## A list that is not lasting loses the value -/

section Necessary

variable [DecidableEq A] [DecidableEq K] {blank : V} {st₀ st : Stores A K V} {g : A} {k : K}
  {v : V} {ops pre post : List (Op A K V)} {ts : List (Thread A K V)} {i : ℕ}

theorem replay_step {t t' : Thread A K V} {st' : Stores A K V} (hi : ts[i]? = some t)
    (h : ThreadStep blank g k st t () st' t') :
    Replay blank g k ops ⟨st, ts⟩ ⟨st', ts.set i t'⟩ :=
  leads_step hi h

theorem replay_solo {t t' : Thread A K V} {st' : Stores A K V} (hi : ts[i]? = some t)
    (h : Solo (ThreadStep blank g k) (st, t) (st', t')) :
    Replay blank g k ops ⟨st, ts⟩ ⟨st', ts.set i t'⟩ :=
  leads_solo hi h

theorem replay_spawn : Replay blank g k ops ⟨st, ts⟩ ⟨st, ts ++ [.acting ops]⟩ :=
  leads_spawn rfl

/-- A thread alone executes its operations as a run does. -/
theorem solo_run (st : Stores A K V) (pre post : List (Op A K V)) :
    Solo (ThreadStep blank g k) (st, .acting (pre ++ post)) (run blank st pre, .acting post) := by
  induction pre generalizing st with
  | nil => exact .refl
  | cons op pre ih =>
      rw [run_cons, List.cons_append]
      cases op with
      | put a k' x => exact (solo_step .put).trans (ih _)
      | remove a k' => exact (solo_step .remove).trans (ih _)
      | copy dest source k' => exact (solo_step .fetch).trans ((solo_step .put).trans (ih _))

/-- A thread alone comes to an end. -/
theorem solo_finish (st : Stores A K V) (t : Thread A K V) :
    ∃ st' t', Solo (ThreadStep blank g k) (st, t) (st', t') ∧ ∃ x, t' = .finished x := by
  cases t with
  | finished x => exact ⟨st, _, .refl, x, rfl⟩
  | acting todo =>
      have hrun : Solo (ThreadStep blank g k) (st, .acting todo)
          (run blank st todo, .acting []) := by
        simpa using solo_run st todo []
      exact ⟨_, _, hrun.tail ⟨(), .read⟩, _, rfl⟩

/-- All threads but one come to an end while that one waits. -/
theorem replay_finish_others {t : Thread A K V} (hi : ts[i]? = some t) :
    ∃ st' ts', Replay blank g k ops ⟨st, ts⟩ ⟨st', ts'⟩ ∧ ts'[i]? = some t ∧
      ∀ j t', j ≠ i → ts'[j]? = some t' → ∃ x, t' = .finished x :=
  leads_finish_others solo_finish hi

/-- A new thread can execute the first operations of the list while the other
threads wait. -/
theorem replay_join (hops : ops = pre ++ post) :
    Replay blank g k ops ⟨st, ts⟩ ⟨run blank st pre, ts ++ [.acting post]⟩ := by
  have hstart : (ts ++ [Thread.acting ops])[ts.length]? = some (.acting (pre ++ post)) := by
    rw [List.getElem?_concat_length, hops]
  have hrun : Replay blank g k ops _ _ := replay_solo hstart (solo_run st pre post)
  rw [List.set_append_right _ _ (le_refl _)] at hrun
  simp only [Nat.sub_self, List.set_cons_zero] at hrun
  exact replay_spawn.trans hrun

/-- A copy that finds no value at its source stores a blank one next. -/
theorem replay_fetch {P : Pool (Stores A K V) (Thread A K V)} {dest source : A}
    (hlead : Replay blank g k ops P ⟨st, ts⟩)
    (hi : ts[i]? = some (.acting (.copy dest source k :: post)))
    (hblank : (st source k).getD blank = blank) :
    ∃ st ts, ∃ i : ℕ, Replay blank g k ops P ⟨st, ts⟩ ∧
      ts[i]? = some (.acting (.put dest k blank :: post)) := by
  have hstep : Replay blank g k ops ⟨st, ts⟩ _ := replay_step hi .fetch
  rw [hblank] at hstep
  exact ⟨st, _, i, hlead.trans hstep, getElem?_set_same _ hi⟩

/-- While a thread waits with a blank value to store, a new thread executes the
first operations of the list; then the value is stored. -/
theorem replay_overtake {dest : A} {todo : List (Op A K V)} (hops : ops = pre ++ post)
    (hi : ts[i]? = some (.acting (.put dest k blank :: todo))) :
    ∃ st' ts', Replay blank g k ops ⟨st, ts⟩ ⟨st', ts'⟩ ∧ st' dest k = some blank ∧
      ts'[ts.length]? = some (.acting post) := by
  have hlt : i < ts.length := (List.getElem?_eq_some_iff.mp hi).1
  have hi' : (ts ++ [Thread.acting post])[i]? = some (.acting (.put dest k blank :: todo)) := by
    rw [List.getElem?_append_left hlt, hi]
  have hput : Replay blank g k ops ⟨run blank st pre, _⟩ _ := replay_step hi' .put
  refine ⟨_, _, (replay_join hops).trans hput, set_self _ _ _ _, ?_⟩
  rw [List.getElem?_set_ne (Nat.ne_of_lt hlt), List.getElem?_concat_length]

/-- Some interleaving brings a thread to where it stores a blank value for a
tainted copy. -/
theorem Tainted.armed (blank : V) (g : A) {dest source : A}
    (h : Tainted st₀ k ops pre dest source post) :
    ∃ st ts, ∃ i : ℕ, Replay blank g k ops ⟨st₀, []⟩ ⟨st, ts⟩ ∧
      ts[i]? = some (.acting (.put dest k blank :: post)) := by
  induction h with
  | removed hops hremove =>
      obtain ⟨pre', post', hops'⟩ := List.append_of_mem hremove
      rw [List.append_cons] at hops'
      refine replay_fetch (i := 0) ((replay_join hops).trans (replay_join hops')) rfl ?_
      simp [run_append, apply]
  | absent hops hnone huntouched =>
      refine replay_fetch (i := 0) (replay_join hops) rfl ?_
      rw [run_of_untouched _ huntouched, hnone]
      rfl
  | chain hops _ ih =>
      obtain ⟨st, ts, i, hlead, hi⟩ := ih
      obtain ⟨st', ts', hover, hblank, hcopy⟩ := replay_overtake hops hi
      exact replay_fetch (hlead.trans hover) hcopy (by rw [hblank]; rfl)

/-- A thread that reads no value, or a blank one, gives the list away. -/
theorem Safe.read_eq (hsafe : Safe blank st₀ g k v ops)
    (hlead : Replay blank g k ops ⟨st₀, []⟩ ⟨st, ts⟩) (hi : ts[i]? = some (.acting [])) :
    (st g k).getD blank = v := by
  have hread : Replay blank g k ops ⟨st, ts⟩ _ := replay_step hi .read
  exact (hsafe _ (hlead.trans hread)).1 _ (List.mem_of_getElem? (getElem?_set_same _ hi))

/-- A safe list never removes the key where it is read: a thread could read
right after another one has removed it. -/
theorem Safe.kept (hsafe : Safe blank st₀ g k v ops) (hv : blank ≠ v) : .remove g k ∉ ops := by
  intro hremove
  obtain ⟨pre, post, hops⟩ := List.append_of_mem hremove
  rw [List.append_cons] at hops
  have hjoin : Replay blank g k ops ⟨st₀, []⟩
      ⟨run blank (run blank st₀ ops) (pre ++ [.remove g k]), [.acting [], .acting post]⟩ :=
    (replay_join (List.append_nil ops).symm).trans (replay_join hops)
  have hread := hsafe.read_eq (i := 0) hjoin rfl
  simp [run_append, apply] at hread
  exact hv hread

/-- In a safe list no tainted copy writes where the key is read: a thread could
read right after the blank value is stored. -/
theorem Safe.dest_ne (hsafe : Safe blank st₀ g k v ops) (hv : blank ≠ v) {dest source : A}
    (h : Tainted st₀ k ops pre dest source post) : dest ≠ g := by
  rintro rfl
  obtain ⟨st, ts, i, hlead, hi⟩ := h.armed blank dest
  obtain ⟨st', ts', hover, hblank, hread⟩ := replay_overtake (List.append_nil ops).symm hi
  have hx := hsafe.read_eq (hlead.trans hover) hread
  rw [hblank] at hx
  exact hv hx

/-- In a safe list a tainted copy is followed by another write of what it
writes: it could be the last to store. -/
theorem Safe.rewritten (hsafe : Safe blank st₀ g k v ops) (hv : blank ≠ v) {dest source : A}
    (h : Tainted st₀ k ops pre dest source post) : ∃ op ∈ post, op.cell = (dest, k) := by
  by_contra hno
  obtain ⟨st, ts, i, hlead, hi⟩ := h.armed blank g
  obtain ⟨st₁, ts₁, hothers, hi₁, hdone⟩ :=
    replay_finish_others hi
  have hlast : Solo (ThreadStep blank g k) (st₁, .acting (.put dest k blank :: post))
      (run blank st₁ (.put dest k blank :: post), .acting []) := by
    simpa using solo_run st₁ (.put dest k blank :: post) []
  have hfinish : Replay blank g k ops _ _ := replay_solo hi₁ (hlast.trans (solo_step .read))
  obtain ⟨_, hall⟩ := hsafe _ ((hlead.trans hothers).trans hfinish)
  have hleft : run blank st₁ (.put dest k blank :: post) dest k = some blank := by
    rw [run_cons, run_of_untouched post fun op hop hcell => hno ⟨op, hop, hcell⟩]
    simp [apply]
  refine hv ((hall ?_).2 dest blank hleft)
  intro t ht
  obtain ⟨j, hj⟩ := List.mem_iff_getElem?.mp ht
  rcases getElem?_set_cases hi₁ hj with ⟨_, rfl⟩ | ⟨hji, hold⟩
  · exact ⟨_, rfl⟩
  · exact hdone j t hji hold

/-- **Whatever the number of executions and their interleaving, a list of copies
and removals keeps the value exactly when it is lasting.** -/
theorem safe_iff_lasting (hputs : ∀ op ∈ ops, ¬ op.IsPut) (hv : blank ≠ v)
    (hcommon : CommonValue st₀ k v) (hfirst : run blank st₀ ops g k = some v) :
    Safe blank st₀ g k v ops ↔ Lasting st₀ g k ops := by
  constructor
  · intro hsafe
    exact ⟨hsafe.kept hv, fun pre dest source post h =>
      ⟨hsafe.dest_ne hv h, hsafe.rewritten hv h⟩⟩
  · intro hlasting
    exact hlasting.safe hputs hcommon hfirst

end Necessary

end Replays
