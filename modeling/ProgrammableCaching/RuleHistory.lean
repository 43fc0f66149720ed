import ProgrammableCaching.Library.Fields
import ProgrammableCaching.Library.LastWriter
import ProgrammableCaching.RuleDb

/-! The rule database over whole histories: it behaves as a map from pairs of an
operation and a key, although it keeps each pair as one string. -/

namespace ProgrammableCaching

open UnorderedMap LastWriter

/-- The value is one that the enum declares. -/
def OperationType.Declared : OperationType → Prop
  | .unrecognized _ => False
  | .get | .put | .remove => True

instance (op : OperationType) : Decidable op.Declared := by
  cases op <;> unfold OperationType.Declared <;> infer_instance

theorem OperationType.declared_get : OperationType.get.Declared := trivial

theorem OperationType.declared_put : OperationType.put.Declared := trivial

/-- No name of an operation has a `:`. -/
theorem OperationType.colon_notMem_name (op : OperationType) : ':' ∉ op.name.toList := by
  cases op <;> simp [OperationType.name]

theorem OperationType.name_injective {op op' : OperationType} (h : op.Declared)
    (hname : op.name = op'.name) : op = op' := by
  cases op <;> cases op' <;>
    first | rfl | exact absurd h id | simp [OperationType.name] at hname

namespace RuleDb

/-- Two pairs with the same string are the same, when the operation of one is
declared. -/
theorem getRuleKey_inj {op op' : OperationType} {key key' : String} (h : op.Declared) :
    getRuleKey key op = getRuleKey key' op' ↔ op = op' ∧ key = key' := by
  have hlist : ∀ (op : OperationType) (key : String),
      (getRuleKey key op).toList = op.name.toList ++ ':' :: key.toList := by
    intro op key
    simp [getRuleKey]
  rw [← String.toList_inj, hlist, hlist,
    Fields.join_inj op.colon_notMem_name op'.colon_notMem_name, String.toList_inj,
    String.toList_inj]
  constructor
  · exact fun heq => ⟨OperationType.name_injective h heq.1, heq.2⟩
  · rintro ⟨rfl, rfl⟩
    exact ⟨rfl, rfl⟩

end RuleDb

/-- The calls that change a rule database. -/
inductive RuleCall
  | addRule (r : Rule)
  | removeRule (r : Rule)
  deriving DecidableEq, Repr

namespace RuleCall

def rule : RuleCall → Rule
  | addRule r => r
  | removeRule r => r

/-- The call is about the rule of this operation on this key. -/
def Concerns (op : OperationType) (key : String) (c : RuleCall) : Prop :=
  c.rule.opType = op ∧ c.rule.key = key

instance (op : OperationType) (key : String) (c : RuleCall) : Decidable (c.Concerns op key) :=
  inferInstanceAs (Decidable (_ ∧ _))

/-- What the call leaves for the pair that it is about. -/
def outcome : RuleCall → Option Rule
  | addRule r => some r
  | removeRule _ => none

/-- What the call makes of the rule for a pair. -/
def effect (op : OperationType) (key : String) (c : RuleCall) : Option (Option Rule) :=
  if c.Concerns op key then some c.outcome else none

theorem effect_eq_none {op : OperationType} {key : String} {c : RuleCall} :
    c.effect op key = none ↔ ¬ c.Concerns op key := by
  simp [effect]

theorem effect_eq_some {op : OperationType} {key : String} {c : RuleCall} {o : Option Rule} :
    c.effect op key = some o ↔ c.Concerns op key ∧ c.outcome = o := by
  simp [effect]

end RuleCall

/-- The rule for each pair of an operation and a key: what a rule database is
for. -/
abbrev RuleMap := OperationType → String → Option Rule

/-- The map after a history of calls. -/
def RuleMap.of (calls : List RuleCall) : RuleMap := fun op key =>
  after (RuleCall.effect op key) none calls

namespace RuleDb

def call (d : RuleDb) : RuleCall → RuleDb
  | .addRule r => d.addRule r
  | .removeRule r => d.removeRule r

def run (d : RuleDb) (calls : List RuleCall) : RuleDb := calls.foldl call d

theorem run_snoc (d : RuleDb) (calls : List RuleCall) (c : RuleCall) :
    d.run (calls ++ [c]) = (d.run calls).call c := by
  simp [run]

theorem run_append (d : RuleDb) (calls calls' : List RuleCall) :
    d.run (calls ++ calls') = (d.run calls).run calls' := by
  simp [run]

/-- The database answers as the map does. -/
def Represents (d : RuleDb) (m : RuleMap) : Prop :=
  ∀ op key, d.ruleDb.lookup (getRuleKey key op) = m op key

/-- A call changes the database at the pair that it is about. The strings keep the
pairs apart as soon as one of the two operations is declared. -/
theorem lookup_call (d : RuleDb) {c : RuleCall} {op : OperationType}
    (h : op.Declared ∨ c.rule.opType.Declared) (key : String) :
    (d.call c).ruleDb.lookup (getRuleKey key op) =
      (c.effect op key).getD (d.ruleDb.lookup (getRuleKey key op)) := by
  have hkey : getRuleKey key op = getRuleKey c.rule.key c.rule.opType ↔ c.Concerns op key := by
    rcases h with h | h
    · rw [getRuleKey_inj h, RuleCall.Concerns, eq_comm, @eq_comm _ key]
    · rw [eq_comm, getRuleKey_inj h, RuleCall.Concerns]
  cases c with
  | addRule r =>
      simp only [RuleCall.rule] at hkey
      by_cases hc : (RuleCall.addRule r).Concerns op key <;>
        simp [call, addRule, RuleCall.effect, RuleCall.outcome, hkey, hc]
  | removeRule r =>
      simp only [RuleCall.rule] at hkey
      by_cases hc : (RuleCall.removeRule r).Concerns op key <;>
        simp [call, removeRule, RuleCall.effect, RuleCall.outcome, hkey, hc]

theorem lookup_run {calls : List RuleCall} {op : OperationType}
    (h : op.Declared ∨ ∀ c ∈ calls, c.rule.opType.Declared) (key : String) :
    (run {} calls).ruleDb.lookup (getRuleKey key op) = RuleMap.of calls op key := by
  induction calls using List.reverseRecOn with
  | nil => exact Finmap.lookup_empty _
  | append_singleton calls c ih =>
      have hc : op.Declared ∨ c.rule.opType.Declared := h.imp_right fun h => h c (by simp)
      have hrest : op.Declared ∨ ∀ c ∈ calls, c.rule.opType.Declared :=
        h.imp_right fun h c' hc' => h c' (by simp [hc'])
      rw [run_snoc, lookup_call _ hc, ih hrest]
      simp [RuleMap.of]

theorem represents_run {calls : List RuleCall} (h : ∀ c ∈ calls, c.rule.opType.Declared) :
    (run {} calls).Represents (RuleMap.of calls) :=
  fun _ key => lookup_run (.inr h) key

theorem hasMatchingRule_iff {d : RuleDb} {m : RuleMap} (h : d.Represents m) (op : OperationType)
    (key : String) : d.hasMatchingRule key op = true ↔ ∃ r, m op key = some r := by
  rw [hasMatchingRule, h op key, Option.isSome_iff_exists]

theorem getMatchingRule_eq {d : RuleDb} {m : RuleMap} (h : d.Represents m) (op : OperationType)
    (key : String) :
    d.getMatchingRule key op = (m op key).elim (.error .outOfRange) .ok := by
  rw [getMatchingRule, h op key]
  cases m op key <;> rfl

end RuleDb

/-! ## The last call about a pair -/

/-- The last call about the operation on the key adds the rule `r`. -/
def LastAdds (calls : List RuleCall) (op : OperationType) (key : String) (r : Rule) : Prop :=
  ∃ pre post, calls = pre ++ .addRule r :: post ∧ (RuleCall.addRule r).Concerns op key ∧
    ∀ c ∈ post, ¬ c.Concerns op key

theorem RuleMap.of_eq_some {calls : List RuleCall} {op : OperationType} {key : String} {r : Rule} :
    RuleMap.of calls op key = some r ↔ LastAdds calls op key r := by
  rw [RuleMap.of, after_eq_iff_of_ne (Option.some_ne_none r)]
  simp only [RuleCall.effect_eq_none]
  constructor
  · rintro ⟨pre, c, post, rfl, hc, hpost⟩
    obtain ⟨hconcerns, houtcome⟩ := RuleCall.effect_eq_some.mp hc
    cases c with
    | removeRule r' => cases houtcome
    | addRule r' =>
        cases houtcome
        exact ⟨pre, post, rfl, hconcerns, hpost⟩
  · rintro ⟨pre, post, rfl, hconcerns, hpost⟩
    exact ⟨pre, _, post, rfl, RuleCall.effect_eq_some.mpr ⟨hconcerns, rfl⟩, hpost⟩

/-- Calls about other pairs do not count. -/
theorem RuleMap.of_filter (calls : List RuleCall) (op : OperationType) (key : String) :
    RuleMap.of (calls.filter fun c => c.Concerns op key) op key = RuleMap.of calls op key := by
  induction calls using List.reverseRecOn with
  | nil => rfl
  | append_singleton calls c ih =>
      simp only [RuleMap.of] at ih ⊢
      rw [List.filter_append, after_append, after_append, ih]
      by_cases hc : c.Concerns op key
      · simp [hc]
      · simp [hc, RuleCall.effect]

namespace RuleDb

/-- **The database is a map.** After any calls for declared operations there is a
matching rule exactly when the last call about the operation on the key added
one. That rule is then the answer, and otherwise there is none; and without the
calls about other pairs the answers would be the same. -/
theorem run_refines_map {calls : List RuleCall} (h : ∀ c ∈ calls, c.rule.opType.Declared)
    (op : OperationType) (key : String) :
    ((run {} calls).hasMatchingRule key op = true ↔ ∃ r, LastAdds calls op key r) ∧
      (∀ r, LastAdds calls op key r → (run {} calls).getMatchingRule key op = .ok r) ∧
      ((¬ ∃ r, LastAdds calls op key r) →
        (run {} calls).getMatchingRule key op = .error .outOfRange) ∧
      (run {} (calls.filter fun c => c.Concerns op key)).hasMatchingRule key op =
        (run {} calls).hasMatchingRule key op ∧
      (run {} (calls.filter fun c => c.Concerns op key)).getMatchingRule key op =
        (run {} calls).getMatchingRule key op := by
  have hall := represents_run h
  have hsome : (run {} (calls.filter fun c => c.Concerns op key)).Represents
      (RuleMap.of (calls.filter fun c => c.Concerns op key)) :=
    represents_run fun c hc => h c (List.mem_filter.mp hc).1
  have hlookup : (run {} (calls.filter fun c => c.Concerns op key)).ruleDb.lookup
      (getRuleKey key op) = (run {} calls).ruleDb.lookup (getRuleKey key op) := by
    rw [hsome op key, hall op key, RuleMap.of_filter]
  refine ⟨?_, ?_, ?_, ?_, ?_⟩
  · rw [hasMatchingRule_iff hall]
    exact exists_congr fun r => RuleMap.of_eq_some
  · intro r hr
    rw [getMatchingRule_eq hall, RuleMap.of_eq_some.mpr hr]
    rfl
  · intro hnone
    have hmap : RuleMap.of calls op key = none :=
      Option.eq_none_iff_forall_ne_some.mpr fun r hr => hnone ⟨r, RuleMap.of_eq_some.mp hr⟩
    rw [getMatchingRule_eq hall, hmap]
    rfl
  · rw [hasMatchingRule, hasMatchingRule, hlookup]
  · rw [getMatchingRule, getMatchingRule, hlookup]

section Example

/-- The key of the second rule looks like the string of the first one. -/
def lookAlike : List RuleCall :=
  [.addRule { opType := .get, key := "k" }, .addRule { opType := .get, key := "GET:k" },
    .addRule { opType := .put, key := "k" }, .removeRule { opType := .get, key := "GET:k" }]

theorem run_refines_map_lookAlike :
    (run {} lookAlike).getMatchingRule "k" .get = .ok { opType := .get, key := "k" } :=
  (run_refines_map (by decide) .get "k").2.1 _
    ⟨[], _, rfl, by decide, by decide⟩

end Example

end RuleDb

end ProgrammableCaching
