import ProgrammableCaching.RuleExecution

/-! A GET rule of copies and removals works on replicas: it returns the value
the key had, invents no value, and keeps the managers in agreement. -/

namespace ProgrammableCaching

open UnorderedMap Replicas

namespace StorageClient

variable {σ : Type} [StorageInterface σ] [LawfulStorage σ]

/-- The operations of copies and removals are no puts. -/
theorem ops_not_isPut {actions : List Action} (v : String)
    (h : ∀ a ∈ actions, a.isCopy ∨ a.isRemove) : ∀ op ∈ Action.ops v actions, ¬ op.IsPut := by
  intro op hop
  obtain ⟨a, ha, haop⟩ := List.mem_filterMap.mp hop
  cases a with
  | put a => simpa [Action.isCopy, Action.isRemove] using h _ ha
  | copyFrom a => cases haop; exact id
  | remove a => cases haop; exact id
  | get a => cases haop
  | notSet => cases haop

/-- **A GET rule keeps the replicas coherent.** The managers agree on every key,
each copy finds its key at its source when it runs, the final get finds the
requested key, and the managers that the client calls are running. Then `Get`
returns the common value of the key; afterwards every value held under a key is
the common value it had before; and a pair that no copy writes and no removal
deletes is as it was. -/
theorem get_keeps_coherence {d : RuleDb} {request : GetRequest} {w : World σ} {rule : Rule}
    {actions : List Action} {last : GetAction} (hrule : FindsRule d request.key .get rule)
    (haction : rule.action = actions ++ [.get last]) (hkey : last.key = request.key)
    (hmoves : ∀ a ∈ actions, a.isCopy ∨ a.isRemove)
    (hrun : ∀ a ∈ rule.action, ∀ uri ∈ a.target, w.Running uri)
    (hcoherent : Coherent w.value)
    (hfed : AllFed "" w.value (Action.ops "" actions))
    (hlast : (run "" w.value (Action.ops "" actions) last.mgr.uri request.key).isSome) :
    ∃ v w', (get d request : Handler (World σ) _) w = .ok ((.ok, { value := v }), w') ∧
      CommonValue w.value request.key v ∧
      (∀ uri key x, w'.value uri key = some x → CommonValue w.value key x) ∧
      Coherent w'.value ∧
      ∀ uri key, (∀ op ∈ Action.ops "" actions, op.cell ≠ (uri, key)) →
        w'.value uri key = w.value uri key := by
  obtain ⟨w', hget, hdone⟩ := get_runs hrule haction hkey hmoves hrun
  obtain ⟨v, hv⟩ := Option.isSome_iff_exists.mp hlast
  rw [hv] at hget
  have hdrawn := run_drawnFrom _ (ops_not_isPut "" hmoves) hfed
  have hcommon : ∀ uri key x, w'.value uri key = some x → CommonValue w.value key x := by
    intro uri key x hx
    rw [hdone.value] at hx
    obtain ⟨b, hb⟩ := hdrawn uri key x hx
    exact hcoherent.commonValue hb
  refine ⟨v, w', hget, ?_, hcommon, ?_, ?_⟩
  · exact hcommon last.mgr.uri request.key v (by rw [hdone.value]; exact hv)
  · rw [hdone.value]
    exact run_coherent _ (ops_not_isPut "" hmoves) hfed hcoherent
  · intro uri key huntouched
    rw [hdone.value]
    exact run_of_untouched _ huntouched

/-! ## A rule that moves a key -/

section Move

open World.TwoManagers

def moveActions : List Action :=
  [.copyFrom ⟨"k", second, first⟩, .remove ⟨"k", first⟩]

def moveRule : Rule := ⟨.get, "k", moveActions ++ [.get ⟨"k", second⟩]⟩

def moveRules : RuleDb := RuleDb.addRule {} moveRule

theorem twoManagers_coherent : Coherent twoManagers.value := by
  intro a b k v w hv hw
  rw [twoManagers_value] at hv hw
  split at hv <;> split at hw <;> simp_all

/-- The rule of the end-to-end test moves the key and returns its value. -/
theorem get_keeps_coherence_move :
    ∃ v w', (get moveRules { key := "k" } : Handler (World MapStorage) _) twoManagers =
        .ok ((.ok, { value := v }), w') ∧
      CommonValue twoManagers.value "k" v ∧
      (∀ uri key x, w'.value uri key = some x → CommonValue twoManagers.value key x) ∧
      Coherent w'.value ∧
      ∀ uri key, (∀ op ∈ Action.ops "" moveActions, op.cell ≠ (uri, key)) →
        w'.value uri key = twoManagers.value uri key :=
  get_keeps_coherence (show FindsRule moveRules _ .get moveRule by decide)
    (show moveRule.action = moveActions ++ [.get ⟨"k", second⟩] from rfl) rfl (by decide)
    (by decide)
    twoManagers_coherent
    (by simp [moveActions, AllFed, Op.Fed, twoManagers_value, first])
    (by decide)

end Move

end StorageClient

end ProgrammableCaching
