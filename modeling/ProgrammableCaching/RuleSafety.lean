import ProgrammableCaching.ClientCalls
import ProgrammableCaching.RuleHistory

/-! Which rules a storage client can execute: what the interpreters `Get` and `Put`
assert about a rule, and the rule requests that establish it. -/

namespace ProgrammableCaching

open Pools Traces RpcInterfaces

/-- The interpreters can execute the rule. A GET rule ends in a get of its key, and
only there it has a get; it has no put. A PUT rule has no get, its puts are of its
key, and it has a remove only if its key is empty. -/
def Rule.WellFormed (r : Rule) : Prop :=
  match r.opType with
  | .get => ∃ actions last, r.action = actions ++ [.get last] ∧ last.key = r.key ∧
      ∀ a ∈ actions, a.isCopy ∨ a.isRemove ∨ a = .notSet
  | .put => ∀ a ∈ r.action, a.isCopy ∨ a.isPutOf r.key ∨ a = .notSet ∨ (a.isRemove ∧ r.key = "")
  | .remove | .unrecognized _ => True

namespace Action

theorem passesGet_iff (a : Action) : a.passesGet ↔ a.isCopy ∨ a.isRemove ∨ a = .notSet := by
  cases a <;> simp [passesGet, isCopy, isRemove]

theorem passesPut_iff (a : Action) (key : String) :
    a.passesPut key ↔ a.isCopy ∨ a.isPutOf key ∨ a = .notSet ∨ (a.isRemove ∧ key = "") := by
  cases a <;> simp [passesPut, isCopy, isRemove, isPutOf, putAction, eq_comm]

end Action

/-- The requests that change the rules of a storage client. -/
inductive RuleRequest
  | installRule (request : InstallRuleRequest)
  | removeRule (request : RemoveRuleRequest)
  deriving DecidableEq, Repr

/-- What the request asks of the rule database. -/
def RuleRequest.call : RuleRequest → RuleCall
  | installRule request => .addRule request.rule
  | removeRule request => .removeRule request.rule

namespace StorageClient

def handleRule (d : RuleDb) : RuleRequest → Status × RuleDb
  | .installRule request => installRule d request
  | .removeRule request => removeRule d request

/-- The rules of a storage client after the requests that it accepts. -/
def rules (es : List RuleRequest) : RuleDb :=
  es.foldl (fun d e => if (handleRule d e).1 = .ok then (handleRule d e).2 else d) {}

/-- A client accepts every request, and changes its rules as the request says. -/
theorem handleRule_eq (d : RuleDb) (e : RuleRequest) : handleRule d e = (.ok, d.call e.call) := by
  cases e <;> rfl

theorem rules_eq (es : List RuleRequest) :
    rules es = RuleDb.run {} (es.map RuleRequest.call) := by
  simp only [rules, handleRule_eq, RuleDb.run, List.foldl_map, if_true]

/-- Whatever the managers answer, `Get` and `Put` come back with a status for every
key that has a rule: no assertion fails and no index is out of range. -/
def Executable (d : RuleDb) : Prop :=
  (∀ request : GetRequest, d.hasMatchingRule request.key .get →
    Completes ClientCall.Accepts (get d request : ClientCode (Status × GetReply))) ∧
  ∀ request : PutRequest, d.hasMatchingRule request.key .put →
    Completes ClientCall.Accepts (put d request : ClientCode Status)

/-! ## One request -/

theorem completes_putReport (req : List Action) :
    Completes ClientCall.Accepts (putReport req) := by
  intro s hs
  cases hs
  trivial

theorem completes_getReport_iff {request : GetRequest} {r : Rule} {req : List Action} :
    Completes ClientCall.Accepts (getReport request r req) ↔
      Completes ClientCall.Accepts (getFinish request r) := by
  constructor
  · exact fun h => h .ok rfl
  · intro h s hs
    cases hs
    exact h

/-- The end of `Get` wants a last action, and that it is a get of the key. -/
theorem completes_getFinish_iff {request : GetRequest} {r : Rule} :
    Completes ClientCall.Accepts (getFinish request r) ↔
      ∃ last, r.action.getLast? = some (.get last) ∧ last.key = request.key := by
  unfold getFinish
  cases r.action.getLast? with
  | none => simp [Completes]
  | some a =>
      cases a with
      | get last =>
          by_cases hkey : last.key = request.key
          · simp only [hkey, decide_true]
            exact ⟨fun _ => ⟨last, rfl, hkey⟩, fun _ _ _ => trivial⟩
          · simp only [hkey, decide_false]
            constructor
            · exact fun h => absurd h id
            · rintro ⟨last', hlast, hkey'⟩
              cases hlast
              exact absurd hkey' hkey
      | copyFrom a => simp [Completes]
      | remove a => simp [Completes]
      | put a => simp [Completes]
      | notSet => simp [Completes]

theorem completes_get_iff {d : RuleDb} {request : GetRequest} {r : Rule}
    (hrule : FindsRule d request.key .get r) :
    Completes ClientCall.Accepts (get d request : ClientCode (Status × GetReply)) ↔
      ∃ actions last, r.action = actions ++ [.get last] ∧ last.key = request.key ∧
        ∀ a ∈ actions, a.passesGet := by
  constructor
  · intro h
    by_cases hpass : ∀ a ∈ r.action.dropLast, a.passesGet
    · rw [get_script hrule hpass, completes_script ClientCall.exists_accepts,
        completes_getReport_iff, completes_getFinish_iff] at h
      obtain ⟨last, hlast, hkey⟩ := h
      exact ⟨_, last, (List.dropLast_append_getLast? _ hlast).symm, hkey, hpass⟩
    · obtain ⟨cs, hget⟩ := get_script_fail hrule hpass
      rw [hget, completes_script ClientCall.exists_accepts] at h
      exact absurd h id
  · rintro ⟨actions, last, hactions, hkey, hpass⟩
    have hdrop : r.action.dropLast = actions := by simp [hactions]
    rw [get_script hrule (by rwa [hdrop]), completes_script ClientCall.exists_accepts,
      completes_getReport_iff, completes_getFinish_iff]
    exact ⟨last, by simp [hactions], hkey⟩

theorem completes_put_iff {d : RuleDb} {request : PutRequest} {r : Rule}
    (hrule : FindsRule d request.key .put r) :
    Completes ClientCall.Accepts (put d request : ClientCode Status) ↔
      ∀ a ∈ r.action, a.passesPut request.key := by
  constructor
  · intro h
    by_contra hpass
    obtain ⟨_, _, _, _, _, _, hput⟩ := put_script_fail hrule hpass
    rw [hput, completes_script ClientCall.exists_accepts] at h
    exact h
  · intro hpass
    rw [put_script hrule hpass, completes_script ClientCall.exists_accepts]
    exact completes_putReport _

/-! ## The rules after a history of requests -/

theorem findsRule_rules {es : List RuleRequest} {op : OperationType} (hop : op.Declared)
    {key : String} {r : Rule} :
    FindsRule (rules es) key op r ↔ LastAdds (es.map RuleRequest.call) op key r := by
  rw [FindsRule, rules_eq, RuleDb.lookup_run (.inl hop), RuleMap.of_eq_some]

theorem hasMatchingRule_iff {d : RuleDb} {op : OperationType} {key : String} :
    d.hasMatchingRule key op = true ↔ ∃ r, FindsRule d key op r :=
  Option.isSome_iff_exists

/-- A rule that the requests leave under an operation and a key is for them. -/
theorem eq_of_lastAdds {calls : List RuleCall} {op : OperationType} {key : String} {r : Rule}
    (h : LastAdds calls op key r) : r.opType = op ∧ r.key = key := by
  obtain ⟨_, _, _, hconcerns, _⟩ := h
  exact hconcerns

theorem completes_get_iff_wellFormed {d : RuleDb} {request : GetRequest} {r : Rule}
    (hrule : FindsRule d request.key .get r) (hop : r.opType = .get) (hkey : r.key = request.key) :
    Completes ClientCall.Accepts (get d request : ClientCode (Status × GetReply)) ↔
      r.WellFormed := by
  simp only [completes_get_iff hrule, Rule.WellFormed, hop, hkey, Action.passesGet_iff]

theorem completes_put_iff_wellFormed {d : RuleDb} {request : PutRequest} {r : Rule}
    (hrule : FindsRule d request.key .put r) (hop : r.opType = .put) (hkey : r.key = request.key) :
    Completes ClientCall.Accepts (put d request : ClientCode Status) ↔ r.WellFormed := by
  simp only [completes_put_iff hrule, Rule.WellFormed, hop, hkey, Action.passesPut_iff]

/-- **Executable rules.** After any rule requests a client can execute every rule
that it has exactly when, for each operation and key, the rule that the last request
installed is well formed. -/
theorem executable_iff (es : List RuleRequest) :
    Executable (rules es) ↔
      ∀ op key r, LastAdds (es.map RuleRequest.call) op key r → r.WellFormed := by
  constructor
  · intro h op key r hlast
    obtain ⟨hop, hkey⟩ := eq_of_lastAdds hlast
    cases op with
    | get =>
        have hrule := (findsRule_rules OperationType.declared_get).mpr hlast
        exact (completes_get_iff_wellFormed hrule hop hkey).mp
          (h.1 ⟨key⟩ (hasMatchingRule_iff.mpr ⟨r, hrule⟩))
    | put =>
        have hrule := (findsRule_rules OperationType.declared_put).mpr hlast
        exact (completes_put_iff_wellFormed hrule hop hkey).mp
          (h.2 ⟨key, ""⟩ (hasMatchingRule_iff.mpr ⟨r, hrule⟩))
    | remove => simp [Rule.WellFormed, hop]
    | unrecognized number => simp [Rule.WellFormed, hop]
  · intro h
    constructor
    · intro request hhas
      obtain ⟨r, hrule⟩ := hasMatchingRule_iff.mp hhas
      have hlast := (findsRule_rules OperationType.declared_get).mp hrule
      obtain ⟨hop, hkey⟩ := eq_of_lastAdds hlast
      exact (completes_get_iff_wellFormed hrule hop hkey).mpr (h _ _ _ hlast)
    · intro request hhas
      obtain ⟨r, hrule⟩ := hasMatchingRule_iff.mp hhas
      have hlast := (findsRule_rules OperationType.declared_put).mp hrule
      obtain ⟨hop, hkey⟩ := eq_of_lastAdds hlast
      exact (completes_put_iff_wellFormed hrule hop hkey).mpr (h _ _ _ hlast)

/-- A GET rule for the key without any action. -/
def emptyRule : Rule := { opType := .get, key := "k" }

/-- The rule is accepted, and then a get of its key asks for the action before the
first one. -/
theorem empty_rule_outOfRange :
    (handleRule {} (.installRule { rule := emptyRule })).1 = .ok ∧
      (rules [.installRule { rule := emptyRule }]).hasMatchingRule "k" .get = true ∧
      (∃ ts, Allowed ClientCall.Accepts ts ∧
        Trace (get (rules [.installRule { rule := emptyRule }]) ⟨"k"⟩ :
          ClientCode (Status × GetReply)) ts (.fail .outOfRange)) ∧
      ¬ Executable (rules [.installRule { rule := emptyRule }]) := by
  have hrule : FindsRule (rules [.installRule { rule := emptyRule }]) "k" .get emptyRule := by
    decide
  have hfail : ∀ s, s = Status.ok →
      Trace (get (rules [.installRule { rule := emptyRule }]) ⟨"k"⟩ :
        ClientCode (Status × GetReply)) [⟨_, .storageChange {}, s⟩] (.fail .outOfRange) := by
    rintro s rfl
    rw [get_eq hrule]
    exact .call _ _ (.nil _)
  refine ⟨rfl, by decide, ⟨_, ?_, hfail .ok rfl⟩, ?_⟩
  · simp [Allowed, ClientCall.Accepts]
  · intro h
    have hget := h.1 ⟨"k"⟩ (by decide)
    rw [get_eq hrule] at hget
    exact hget .ok rfl

end StorageClient

end ProgrammableCaching
