import ProgrammableCaching.ClientContracts

/-! What clients can do to the managers is what the actions of their rules say, however their calls
take turns and whatever goes wrong. -/

namespace ProgrammableCaching

open UnorderedMap Replicas Handler RpcInterfaces Pools Runs Contracts

variable {σ : Type} [StorageInterface σ] [LawfulStorage σ]
  {allowed : Op String String String → Prop} {w : World σ}
  {es : List (Pools.Event RequestThread CallSeen)} {P : Pool (World σ) RequestThread}

/-- **What the rules keep, every run keeps.** A property of the managers' contents that the
operations of the rules keep one by one holds after every run of clients with these rules, whatever
the faults. -/
theorem invariant_of_within {I : Stores String String String → Prop} (h0 : I w.value)
    (hop : ∀ st op, allowed op → I st → I (Replicas.apply "" st op))
    (hrun : Reaches (FaultyStep (RuleDb.Within allowed)) ⟨w, []⟩ es P) : I P.state.value := by
  -- nothing but the operations matters here, so everything is accounted for
  have hspawn : ∀ (s : World σ) p, I s.value → StorageClient.Handles (RuleDb.Within allowed) p →
      (fun _ _ => True : Accounted) ≤ (fun _ _ => True) ∧ I s.value ∧
        Meets (clientContract allowed) ReplyAccounted p fun _ _ => True := by
    intro s p hs hp
    refine ⟨le_rfl, hs, ?_⟩
    cases hp with
    | get request hd => exact StorageClient.meets_getThread request hd
    | put request hd => exact StorageClient.meets_putThread trivial hd
  have hserve : ∀ (s s' : World σ) (l : CallSeen) (β : Type) (c : Rpc β) (b : β), I s.value →
      (clientContract allowed).requires c (fun _ _ => True) → FaultyServe c s l b s' →
        (fun _ _ => True : Accounted) ≤ (fun _ _ => True) ∧ I s'.value ∧
          (clientContract allowed).ensures c b fun _ _ => True := by
    rintro s s' l β c b hs hrequires ⟨f, rfl, hcall⟩
    refine ⟨le_rfl, ?_, fun _ _ _ => trivial⟩
    rcases (Rpc.outcome hcall).value with hsame | ⟨op, hc, hvalue⟩
    · rwa [hsame]
    · rw [hvalue]
      exact hop _ op (hrequires op hc).1 hs
  exact (meets_of_reaches h0 (fun _ => hspawn) (fun _ _ => hserve) hrun).1

/-- The operation does not remove `key` at `uri`. -/
def Keeps (uri key : String) (op : Op String String String) : Prop := op ≠ .remove uri key

/-- The operation writes something else than `key` at `uri`. -/
def Spares (uri key : String) (op : Op String String String) : Prop := op.cell ≠ (uri, key)

/-- **Only removals lose keys.** -/
theorem held_key_stays {uri key : String} (h : (w.value uri key).isSome)
    (hrun : Reaches (FaultyStep (RuleDb.Within (Keeps uri key))) ⟨w, []⟩ es P) :
    (P.state.value uri key).isSome := by
  refine invariant_of_within (I := fun st => (st uri key).isSome) h (fun st op hop hst => ?_) hrun
  by_cases hcell : op.cell = (uri, key)
  · cases op with
    | put uri' key' v =>
        cases hcell
        simp [Replicas.apply]
    | copy dest source key' =>
        cases hcell
        simp [Replicas.apply]
    | remove uri' key' =>
        cases hcell
        exact absurd rfl hop
  · rwa [apply_of_ne op hcell]

/-- **Rules leave the rest alone.** -/
theorem spared_entry_unchanged {uri key : String}
    (hrun : Reaches (FaultyStep (RuleDb.Within (Spares uri key))) ⟨w, []⟩ es P) :
    P.state.value uri key = w.value uri key := by
  refine invariant_of_within (I := fun st => st uri key = w.value uri key) rfl
    (fun st op hop hst => ?_) hrun
  rwa [apply_of_ne op hop]

/-! ## The keys of the lost copy -/

section LostCopy

theorem within_copyRules {allowed : Op String String String → Prop}
    (h : ∀ v, allowed (.put "n2:1" "k" v)) : copyRules.Within allowed := by
  intro key op r hr
  simp only [StorageClient.FindsRule, copyRules, RuleDb.addRule, lookup_insert_ite] at hr
  split at hr
  · cases hr
    intro a ha v o ho
    rcases List.mem_cons.mp ha with rfl | ha
    · cases List.mem_singleton.mp ho
      exact h v
    · cases List.mem_singleton.mp ha
      cases ho
  · simp at hr

/-- The key stays at its source. -/
theorem held_key_stays_lostCopy :
    ∃ P, Reaches (FaultyStep (RuleDb.Within (Keeps "n1:1" "k")))
        ⟨World.TwoManagers.twoManagers, []⟩ lostCopy P ∧ (P.state.value "n1:1" "k").isSome := by
  obtain ⟨P, hP, _⟩ := reaches_lostCopy (RuleDb.Within (Keeps "n1:1" "k"))
    (within_copyRules fun v => nofun)
  exact ⟨P, hP, held_key_stays (by decide) hP⟩

theorem spared_entry_unchanged_lostCopy :
    ∃ P, Reaches (FaultyStep (RuleDb.Within (Spares "n1:1" "k")))
        ⟨World.TwoManagers.twoManagers, []⟩ lostCopy P ∧
      P.state.value "n1:1" "k" = World.TwoManagers.twoManagers.value "n1:1" "k" := by
  obtain ⟨P, hP, _⟩ := reaches_lostCopy (RuleDb.Within (Spares "n1:1" "k"))
    (within_copyRules fun v => by simp [Spares, Op.cell])
  exact ⟨P, hP, spared_entry_unchanged hP⟩

end LostCopy

end ProgrammableCaching
