import ProgrammableCaching.Library.Replays
import ProgrammableCaching.Coherence
import ProgrammableCaching.Threads

/-! Repeated reads under one rule: any number of calls of `Get` with the same
key, one after another or at the same time. -/

namespace ProgrammableCaching.StorageClient

open UnorderedMap Replicas Handler RpcInterfaces Pools World

/-! ## The calls of a `Get` -/

/-- What is left of a `Get` after its last report. -/
def readLast (last : GetAction) : ClientThread (Status × GetReply) :=
  .call (.managerGet last.mgr.uri { key := last.key }) fun (_, reply) => .done (.ok, reply)

/-- What is left of a `Get` after its loop. -/
def reportAndRead (last : GetAction) (req : List Action) : ClientThread (Status × GetReply) := do
  let s ← storageChange { storageChange := req }
  check s.isOk
  readLast last

/-- What is left of a `Get` that still has to execute `rest`. -/
def getFrom (last : GetAction) (rest req : List Action) : ClientThread (Status × GetReply) :=
  getLoop rest req >>= reportAndRead last

variable {last : GetAction} {rest req : List Action}

theorem get_eq_getFrom {d : RuleDb} {request : GetRequest} {rule : Rule} {actions : List Action}
    (hrule : FindsRule d request.key .get rule) (haction : rule.action = actions ++ [.get last])
    (hkey : last.key = request.key) :
    (get d request : ClientThread _) = getFrom last actions [] := by
  have hfound : d.ruleDb.lookup (RuleDb.getRuleKey request.key .get) = some rule := hrule
  have hdrop : rule.action.dropLast = actions := by simp [haction]
  have hget : rule.action.getLast? = some (.get last) := by simp [haction]
  simp only [get, RuleDb.hasMatchingRule, RuleDb.getMatchingRule, hfound, Option.isSome_some,
    check, lift, if_true, pure_bind, hdrop, hget, hkey, decide_true]
  rfl

/-! ## Calls of `Get` as threads of a replay -/

variable {σ : Type} [StorageInterface σ] [LawfulStorage σ]

/-- `s` holds `st`, and the managers of `w` are running in it. -/
structure Mirrors (w s : World σ) (st : Stores String String String) : Prop where
  value : st = s.value
  running : ∀ uri, s.Running uri ↔ w.Running uri

/-- A call of `Get` that is to execute the same operations as a thread of a
replay, where the managers it calls are running in `w`. -/
inductive Follows (w : World σ) (last : GetAction) :
    ClientThread (Status × GetReply) → Replays.Thread String String String → Prop
  | acting {rest req : List Action} :
      (∀ a ∈ rest, a.isCopy ∨ a.isRemove) → (∀ a ∈ rest, ∀ uri ∈ a.target, w.Running uri) →
        Follows w last (getFrom last rest req) (.acting (Action.ops "" rest))
  | storing {rest req : List Action} {uri key : String} {request : CopyFromRequest}
      {reply : GetReply} :
      (∀ a ∈ rest, a.isCopy ∨ a.isRemove) → (∀ a ∈ rest, ∀ uri ∈ a.target, w.Running uri) →
        w.Running uri → request.key = key →
        Follows w last
          (.call (.copyFromStore uri request reply) fun _ => getFrom last rest req)
          (.acting (.put uri key reply.value :: Action.ops "" rest))
  | reading : Follows w last (readLast last) (.acting [])
  | finished {x : String} : Follows w last (.done (.ok, { value := x })) (.finished x)

variable {w s s' : World σ} {st st' : Stores String String String}
  {p p' : ClientThread (Status × GetReply)} {t t' : Replays.Thread String String String}
  {l : Σ β, Rpc β}

theorem Mirrors.effect {ops : List (Op String String String)} (h : Mirrors w s st)
    (he : Effect ops s s') : Mirrors w s' (run "" st ops) where
  value := by rw [he.value, h.value]
  running uri := (he.running uri).trans (h.running uri)

theorem Mirrors.report (h : Mirrors w s st) {request : StorageChangeRequest}
    {r : Status × World σ} (hr : World.storageChange request s = .ok r) :
    r.1 = .ok ∧ Mirrors w r.2 st := by
  cases hr
  exact ⟨rfl, h.value, h.running⟩

/-- The final read returns what is stored. -/
theorem readLast_next (hlast : w.Running last.mgr.uri) (hm : Mirrors w s st) :
    ∃ l s', ClientThread.Step s (readLast last) l s'
        (.done (.ok, { value := (st last.mgr.uri last.key).getD "" })) ∧ Mirrors w s' st := by
  obtain ⟨r, hr⟩ := managerCall_total ((hm.running _).mpr hlast) fun m : σ =>
    (((StorageManager.get m { key := last.key }).1, (StorageManager.get m { key := last.key }).2.1),
      (StorageManager.get m { key := last.key }).2.2)
  obtain ⟨hreply, heff⟩ := managerGet_ok hr
  have hstep := ClientThread.exists_step (c := .managerGet last.mgr.uri { key := last.key }) hr
    (k := fun r => (.done (.ok, r.2) : ClientThread (Status × GetReply)))
  rw [hreply, ← hm.value] at hstep
  exact ⟨_, _, hstep, hm.effect heff⟩

/-- A `Get` that has not come to its end makes a call: its report, which its
thread in the replay takes no part in, or one step of the thread. -/
theorem Follows.next (hf : Follows w last p t) (hlast : w.Running last.mgr.uri)
    (hm : Mirrors w s st) :
    (∃ x, p = .done (.ok, { value := x }) ∧ t = .finished x) ∨
      ∃ l s' p', ClientThread.Step s p l s' p' ∧
        ((t = .acting [] ∧ p' = readLast last ∧ Mirrors w s' st) ∨
          ∃ st' t', Replays.ThreadStep "" last.mgr.uri last.key st t () st' t' ∧
            Mirrors w s' st' ∧ Follows w last p' t') := by
  cases hf with
  | finished => exact .inl ⟨_, rfl, rfl⟩
  | reading =>
      obtain ⟨l, s', hstep, hm'⟩ := readLast_next hlast hm
      exact .inr ⟨l, s', _, hstep, .inr ⟨st, _, .read, hm', .finished⟩⟩
  | @storing rest req uri key request reply hmoves hrun huri hkey =>
      subst hkey
      obtain ⟨r, hr⟩ := managerCall_total ((hm.running _).mpr huri) fun m : σ =>
        (Status.ok, (StorageInterface.put m request.key reply.value).2)
      exact .inr ⟨_, _, _, ClientThread.exists_step (c := .copyFromStore _ _ reply) hr,
        .inr ⟨_, _, .put, hm.effect (copyFromStore_ok hr).2, .acting hmoves hrun⟩⟩
  | @acting rest req hmoves hrun =>
      right
      cases rest with
      | nil => exact ⟨_, _, _, ClientThread.exists_step rfl, .inl ⟨rfl, rfl, hm.value, hm.running⟩⟩
      | cons a rest =>
          have hmoves' : ∀ a ∈ rest, a.isCopy ∨ a.isRemove := fun a ha => hmoves a (by simp [ha])
          have hrun' : ∀ a ∈ rest, ∀ uri ∈ a.target, w.Running uri :=
            fun a ha => hrun a (by simp [ha])
          cases a with
          | get a =>
              exact absurd (hmoves _ List.mem_cons_self) (by simp [Action.isCopy, Action.isRemove])
          | put a =>
              exact absurd (hmoves _ List.mem_cons_self) (by simp [Action.isCopy, Action.isRemove])
          | notSet =>
              exact absurd (hmoves _ List.mem_cons_self) (by simp [Action.isCopy, Action.isRemove])
          | copyFrom a =>
              have hsrc := hrun _ List.mem_cons_self _ rfl
              have hcall : copyFromFetch a.srcMgr.uri { key := a.key, dstUri := a.dstMgr.uri } s =
                  .ok (s.copyFetch { key := a.key, dstUri := a.dstMgr.uri }) :=
                if_pos ((hm.running _).mpr hsrc)
              obtain ⟨_, hreply, heff⟩ := copyFromFetch_ok hcall
              refine ⟨_, _, _, ClientThread.exists_step (c := .copyFromFetch _ _) hcall,
                .inr ⟨st, _, .fetch, hm.effect heff, ?_⟩⟩
              rw [hreply, hm.value]
              exact .storing hmoves' hrun' hsrc rfl
          | remove a =>
              obtain ⟨r, hr⟩ := managerCall_total
                ((hm.running _).mpr (hrun _ List.mem_cons_self _ rfl))
                fun m : σ => StorageManager.remove m { key := a.key }
              exact ⟨_, _, _, ClientThread.exists_step (c := .managerRemove _ _) hr,
                .inr ⟨_, _, .remove, hm.effect (managerRemove_ok hr).2, .acting hmoves' hrun'⟩⟩

/-- Each call of a `Get` is no step or one step of its thread in the replay. -/
theorem Follows.forward (hf : Follows w last p t) (hlast : w.Running last.mgr.uri)
    (hm : Mirrors w s st) (hstep : ClientThread.Step s p l s' p') :
    ∃ st' t', Solo (Replays.ThreadStep "" last.mgr.uri last.key) (st, t) (st', t') ∧
      Mirrors w s' st' ∧ Follows w last p' t' := by
  rcases hf.next hlast hm with ⟨x, rfl, _⟩ | ⟨_, s₁, p₁, hnext, hcase⟩
  · exact absurd hstep Prog.not_step_done
  · obtain ⟨rfl, rfl⟩ := hstep.functional hnext
    rcases hcase with ⟨rfl, rfl, hm'⟩ | ⟨st', t', hthread, hm', hf'⟩
    · exact ⟨st, _, .refl, hm', .reading⟩
    · exact ⟨st', t', solo_step hthread, hm', hf'⟩

/-- Each step of a thread of the replay is one or two calls of its `Get`. -/
theorem Follows.backward (hf : Follows w last p t) (hlast : w.Running last.mgr.uri)
    (hm : Mirrors w s st) (hstep : Replays.ThreadStep "" last.mgr.uri last.key st t () st' t') :
    ∃ s' p', Solo ClientThread.Step (s, p) (s', p') ∧ Mirrors w s' st' ∧ Follows w last p' t' := by
  rcases hf.next hlast hm with ⟨x, _, rfl⟩ | ⟨_, s₁, p₁, hnext, hcase⟩
  · cases hstep
  · rcases hcase with ⟨rfl, rfl, hm₁⟩ | ⟨st₁, t₁, hthread, hm₁, hf₁⟩
    · -- the report, then the final read
      obtain ⟨_, s₂, hread, hm₂⟩ := readLast_next hlast hm₁
      obtain ⟨rfl, rfl⟩ := hstep.functional .read
      exact ⟨s₂, _, (solo_step hnext).trans (solo_step hread), hm₂, .finished⟩
    · obtain ⟨rfl, rfl⟩ := hstep.functional hthread
      exact ⟨s₁, p₁, solo_step hnext, hm₁, hf₁⟩

/-! ## Reading the key again and again -/

/-- Calls of `Get` with the same request, one after another or at the same
time. -/
def Reads (d : RuleDb) (request : GetRequest) :
    Pool (World σ) (ClientThread (Status × GetReply)) →
      Pool (World σ) (ClientThread (Status × GetReply)) → Prop :=
  Leads (· = get d request) ClientThread.Step

/-- However many calls of `Get` are made, and however their calls to the managers
take turns: every `Get` comes to an end and returns `v`, and when all have
returned `v` is still what the managers hold. -/
def Repeatable (d : RuleDb) (request : GetRequest) (w : World σ) (v : String) : Prop :=
  ∀ P, Reads d request ⟨w, []⟩ P →
    (∀ p ∈ P.threads, p.Ends ∧ (p = .done (.ok, { value := v }) ∨
      ∃ l s' p', ClientThread.Step P.state p l s' p')) ∧
    ((∀ p ∈ P.threads, p = .done (.ok, { value := v })) →
      CommonValue P.state.value request.key v)

variable {d : RuleDb} {request : GetRequest} {rule : Rule} {actions : List Action} {v : String}
  {P : Pool (World σ) (ClientThread (Status × GetReply))}
  {Q : Pool (Stores String String String) (Replays.Thread String String String)}

/-- Calls of `Get` are matched by threads of a replay. -/
theorem reads_forward (hrule : FindsRule d request.key .get rule)
    (haction : rule.action = actions ++ [.get last]) (hkey : last.key = request.key)
    (hmoves : ∀ a ∈ actions, a.isCopy ∨ a.isRemove)
    (hrun : ∀ a ∈ rule.action, ∀ uri ∈ a.target, w.Running uri) (h : Reads d request ⟨w, []⟩ P) :
    ∃ Q, Replays.Replay "" last.mgr.uri last.key (Action.ops "" actions) ⟨w.value, []⟩ Q ∧
      Mirrors w P.state Q.state ∧ List.Forall₂ (Follows w last) P.threads Q.threads := by
  refine Leads.simulate (R := Mirrors w) (S := Follows w last) ?_ ?_ ⟨rfl, fun _ => Iff.rfl⟩ .nil h
  · rintro _ rfl
    rw [get_eq_getFrom hrule haction hkey]
    exact ⟨_, rfl, .acting hmoves fun a ha => hrun a (by simp [haction, ha])⟩
  · intro s st p t l s' p' hm hf hstep
    exact hf.forward (hrun (.get last) (by simp [haction]) _ rfl) hm hstep

/-- Threads of a replay are matched by calls of `Get`. -/
theorem reads_backward (hrule : FindsRule d request.key .get rule)
    (haction : rule.action = actions ++ [.get last]) (hkey : last.key = request.key)
    (hmoves : ∀ a ∈ actions, a.isCopy ∨ a.isRemove)
    (hrun : ∀ a ∈ rule.action, ∀ uri ∈ a.target, w.Running uri)
    (h : Replays.Replay "" last.mgr.uri last.key (Action.ops "" actions) ⟨w.value, []⟩ Q) :
    ∃ P, Reads d request ⟨w, []⟩ P ∧ Mirrors w P.state Q.state ∧
      List.Forall₂ (fun t p => Follows w last p t) Q.threads P.threads := by
  refine Leads.simulate (R := fun st s => Mirrors w s st) (S := fun t p => Follows w last p t)
    ?_ ?_ ⟨rfl, fun _ => Iff.rfl⟩ .nil h
  · rintro _ rfl
    rw [get_eq_getFrom hrule haction hkey]
    exact ⟨_, rfl, .acting hmoves fun a ha => hrun a (by simp [haction, ha])⟩
  · intro st s t p l st' t' hm hf hstep
    exact hf.backward (hrun (.get last) (by simp [haction]) _ rfl) hm hstep

/-- Repeated reads are repeated executions of the operations of the rule. -/
theorem repeatable_iff_safe (hrule : FindsRule d request.key .get rule)
    (haction : rule.action = actions ++ [.get last]) (hkey : last.key = request.key)
    (hmoves : ∀ a ∈ actions, a.isCopy ∨ a.isRemove)
    (hrun : ∀ a ∈ rule.action, ∀ uri ∈ a.target, w.Running uri) :
    Repeatable d request w v ↔
      Replays.Safe "" w.value last.mgr.uri request.key v (Action.ops "" actions) := by
  have hlast : w.Running last.mgr.uri := hrun (.get last) (by simp [haction]) _ rfl
  rw [← hkey]
  constructor
  · intro hrep Q hQ
    obtain ⟨P, hP, hm, hpairs⟩ := reads_backward hrule haction hkey hmoves hrun hQ
    obtain ⟨hreturns, hcommon⟩ := hrep P hP
    have hfinished : ∀ p ∈ P.threads, ∀ x, Follows w last p (.finished x) →
        x = v ∧ p = .done (.ok, { value := v }) := by
      intro p hp x hf
      cases hf
      rcases (hreturns _ hp).2 with hdone | ⟨_, _, _, hstep⟩
      · cases hdone
        exact ⟨rfl, rfl⟩
      · exact absurd hstep Prog.not_step_done
    refine ⟨fun x hx => ?_, fun hall => ?_⟩
    · obtain ⟨p, hp, hf⟩ := forall₂_mem hpairs hx
      exact (hfinished p hp x hf).1
    · rw [hm.value, hkey]
      refine hcommon fun p hp => ?_
      obtain ⟨t, ht, hf⟩ := forall₂_mem hpairs.flip hp
      obtain ⟨x, rfl⟩ := hall t ht
      exact (hfinished p hp x hf).2
  · intro hsafe P hP
    obtain ⟨Q, hQ, hm, hpairs⟩ := reads_forward hrule haction hkey hmoves hrun hP
    obtain ⟨hreads, hcommon⟩ := hsafe Q hQ
    refine ⟨fun p hp => ⟨p.ends, ?_⟩, fun hall => ?_⟩
    · obtain ⟨t, ht, hf⟩ := forall₂_mem hpairs hp
      rcases hf.next hlast hm with ⟨x, rfl, rfl⟩ | ⟨l, s', p', hstep, _⟩
      · rw [hreads x ht]
        exact .inl rfl
      · exact .inr ⟨l, s', p', hstep⟩
    · rw [← hm.value, ← hkey]
      refine hcommon fun t ht => ?_
      obtain ⟨p, hp, hf⟩ := forall₂_mem hpairs.flip ht
      rcases hf.next hlast hm with ⟨x, _, rfl⟩ | ⟨_, _, _, hstep, _⟩
      · exact ⟨x, rfl⟩
      · rw [hall p hp] at hstep
        exact absurd hstep Prog.not_step_done

/-- **Repeated reads under one rule.** The rule executes copies and removals and
then gets the key, the managers that hold the key agree on its value, and a first
`Get` returns it. Then the key can be read again and again, whatever the
interleaving, exactly when the rule is lasting. -/
theorem get_repeatable_iff (hrule : FindsRule d request.key .get rule)
    (haction : rule.action = actions ++ [.get last])
    (hmoves : ∀ a ∈ actions, a.isCopy ∨ a.isRemove) (hv : v ≠ "")
    (hcommon : CommonValue w.value request.key v) {w₁ : World σ}
    (hfirst : (get d request : Handler (World σ) _) w = .ok ((.ok, { value := v }), w₁)) :
    Repeatable d request w v ↔
      Replays.Lasting w.value last.mgr.uri request.key (Action.ops "" actions) := by
  have hrun := get_running hrule hfirst
  obtain ⟨rule', actions', last', hrule', haction', hkey, hreply, _⟩ := get_ok hfirst
  have hsame : rule' = rule := Option.some.inj (hrule'.symm.trans hrule)
  subst hsame
  rw [haction] at haction'
  obtain ⟨rfl, hlast⟩ := List.append_inj' haction' rfl
  cases hlast
  have hread : run "" w.value (Action.ops "" actions) last.mgr.uri request.key = some v := by
    have hvalue :
        v = (run "" w.value (Action.ops "" actions) last.mgr.uri request.key).getD "" := by
      simpa using hreply
    cases hrd : run "" w.value (Action.ops "" actions) last.mgr.uri request.key with
    | none => rw [hrd] at hvalue; exact absurd hvalue hv
    | some x => rw [hrd] at hvalue; rw [hvalue]; rfl
  rw [repeatable_iff_safe hrule haction hkey hmoves hrun]
  exact Replays.safe_iff_lasting (ops_not_isPut "" hmoves) (Ne.symm hv) hcommon hread

/-! ## A rule that copies a key and a rule that moves it -/

section TwoManagers

open World.TwoManagers

def copyActions : List Action := [.copyFrom ⟨"k", second, first⟩]

def copyRule : Rule := ⟨.get, "k", copyActions ++ [.get ⟨"k", second⟩]⟩

def copyRules : RuleDb := RuleDb.addRule {} copyRule

theorem twoManagers_commonValue : CommonValue twoManagers.value "k" "v" :=
  twoManagers_coherent.commonValue (a := "n1:1") (by simp [twoManagers_value])

theorem copyActions_lasting :
    Replays.Lasting twoManagers.value "n2:1" "k" (Action.ops "" copyActions) where
  kept := by decide
  covered pre dest source post h := by
    have hcopy : ∀ {pre dest source post},
        Action.ops "" copyActions = pre ++ .copy dest source "k" :: post →
          dest = "n2:1" ∧ source = "n1:1" := by
      intro pre dest source post hops
      cases pre with
      | nil =>
          cases hops
          exact ⟨rfl, rfl⟩
      | cons op pre => simp [copyActions] at hops
    cases h with
    | removed hops hremove => simp [copyActions] at hremove
    | absent hops hnone =>
        obtain ⟨_, rfl⟩ := hcopy hops
        simp [twoManagers_value] at hnone
    | chain hops h' =>
        obtain ⟨_, rfl⟩ := hcopy hops
        exact absurd (hcopy h'.ops_eq).1 (by decide)

/-- Copying the key and reading the copy can go on forever. -/
theorem get_repeatable_iff_copy : Repeatable copyRules { key := "k" } twoManagers "v" := by
  obtain ⟨w₁, hget, _⟩ := @get_runs MapStorage _ _ copyRules { key := "k" } twoManagers copyRule
    copyActions ⟨"k", second⟩ (by decide) rfl rfl (by decide) (by decide)
  exact (get_repeatable_iff (show FindsRule copyRules _ .get copyRule by decide)
    (show copyRule.action = copyActions ++ [.get ⟨"k", second⟩] from rfl) (by decide) (by decide)
    twoManagers_commonValue hget).mpr copyActions_lasting

/-- The rule of the end-to-end test moves the key. A second `Get` finds nothing
to copy, copies the empty value over the moved one and returns it. -/
theorem second_get_loses_value :
    CommonValue twoManagers.value "k" "v" ∧
      (∃ w₁ w₂, (get moveRules { key := "k" } : Handler (World MapStorage) _) twoManagers =
          .ok ((.ok, { value := "v" }), w₁) ∧
        (get moveRules { key := "k" } : Handler (World MapStorage) _) w₁ =
          .ok ((.ok, { value := "" }), w₂) ∧
        ∀ uri, w₂.value uri "k" ≠ some "v") ∧
      ¬ Repeatable moveRules { key := "k" } twoManagers "v" := by
  have hrule : FindsRule moveRules "k" .get moveRule := by decide
  have haction : moveRule.action = moveActions ++ [.get ⟨"k", second⟩] := rfl
  have hrun : ∀ a ∈ moveRule.action, ∀ uri ∈ a.target, twoManagers.Running uri := by decide
  refine ⟨twoManagers_commonValue, ?_, ?_⟩
  · have hget : ∀ w : World MapStorage, (∀ a ∈ moveRule.action, ∀ uri ∈ a.target, w.Running uri) →
        ∃ w', (get moveRules { key := "k" } : Handler (World MapStorage) _) w =
          .ok ((.ok, ⟨(run "" w.value (Action.ops "" moveActions) second.uri "k").getD ""⟩), w') ∧
            Executed (Action.ops "" moveActions) (Action.reported moveActions) w w' :=
      fun w hw => get_runs hrule haction rfl (by decide) hw
    obtain ⟨w₁, hget₁, hdone₁⟩ := hget twoManagers hrun
    obtain ⟨w₂, hget₂, hdone₂⟩ := hget w₁
      fun a ha uri huri => (hdone₁.running uri).mpr (hrun a ha uri huri)
    refine ⟨w₁, w₂, hget₁, ?_, ?_⟩
    · rw [hget₂, hdone₁.value]
      rfl
    · intro uri
      rw [hdone₂.value, hdone₁.value]
      by_cases h₁ : uri = "n1:1"
      · simp [moveActions, Replicas.apply, Replicas.set, first, second, h₁]
      · by_cases h₂ : uri = "n2:1"
        · simp [moveActions, Replicas.apply, Replicas.set, first, second, h₂]
        · simp [moveActions, Replicas.apply, Replicas.set, twoManagers_value, first, second, h₁, h₂]
  · rw [repeatable_iff_safe hrule haction rfl (by decide) hrun]
    intro hsafe
    have htaint : Replays.Tainted twoManagers.value "k" (Action.ops "" moveActions) []
        "n2:1" "n1:1" [.remove "n1:1" "k"] := .removed rfl (by decide)
    exact hsafe.dest_ne (by decide) htaint rfl

end TwoManagers

end ProgrammableCaching.StorageClient
