import ProgrammableCaching.Library.Traces
import ProgrammableCaching.RuleExecution

/-! The handlers of a storage client as the calls that they make. Which calls
those are depends on the rule, not on what the managers answer. -/

namespace ProgrammableCaching

open Pools Traces RpcInterfaces

/-- The calls of a storage client. -/
inductive ClientCall : Type → Type
  | managerGet (uri : String) (request : GetRequest) : ClientCall (Status × GetReply)
  | managerPut (uri : String) (request : PutRequest) : ClientCall Status
  | managerRemove (uri : String) (request : RemoveRequest) : ClientCall Status
  | managerCopyFrom (uri : String) (request : CopyFromRequest) : ClientCall Status
  | storageChange (request : StorageChangeRequest) : ClientCall Status

/-- A handler of a storage client that makes one call at a time. -/
abbrev ClientCode := Prog ClientCall Failure

instance : RpcInterfaces ClientCode where
  managerGet uri request := .perform (.managerGet uri request)
  managerPut uri request := .perform (.managerPut uri request)
  managerRemove uri request := .perform (.managerRemove uri request)
  managerCopyFrom uri request := .perform (.managerCopyFrom uri request)
  storageChange request := .perform (.storageChange request)

/-- The master answers every report with `OK`; a manager may answer anything. -/
def ClientCall.Accepts : {β : Type} → ClientCall β → β → Prop
  | _, .storageChange _, status => status = .ok
  | _, .managerGet _ _, _ => True
  | _, .managerPut _ _, _ => True
  | _, .managerRemove _ _, _ => True
  | _, .managerCopyFrom _ _, _ => True

theorem ClientCall.exists_accepts {β : Type} (c : ClientCall β) : ∃ b, c.Accepts b := by
  cases c with
  | managerGet => exact ⟨(.ok, {}), trivial⟩
  | managerPut => exact ⟨.ok, trivial⟩
  | managerRemove => exact ⟨.ok, trivial⟩
  | managerCopyFrom => exact ⟨.ok, trivial⟩
  | storageChange => exact ⟨.ok, rfl⟩

/-! ## Requests and reports -/

/-- A request to a manager. -/
inductive ManagerCall
  | get (uri : String) (request : GetRequest)
  | put (uri : String) (request : PutRequest)
  | remove (uri : String) (request : RemoveRequest)
  | copyFrom (uri : String) (request : CopyFromRequest)
  deriving DecidableEq, Repr

namespace ClientCall

variable {β : Type}

def managerCall : ClientCall β → Option ManagerCall
  | .managerGet uri request => some (.get uri request)
  | .managerPut uri request => some (.put uri request)
  | .managerRemove uri request => some (.remove uri request)
  | .managerCopyFrom uri request => some (.copyFrom uri request)
  | .storageChange _ => none

/-- The changes that the call reports. -/
def changes : ClientCall β → List Action
  | .storageChange request => request.storageChange
  | .managerGet _ _ | .managerPut _ _ | .managerRemove _ _ | .managerCopyFrom _ _ => []

/-- A call to a manager reports nothing. -/
theorem changes_of_managerCall {call : ClientCall β} {c : ManagerCall}
    (h : call.managerCall = some c) : call.changes = [] := by
  cases call <;> first | rfl | cases h

end ClientCall

/-- The requests to managers among the calls. -/
def managerCalls (cs : List (Σ β, ClientCall β)) : List ManagerCall :=
  cs.filterMap fun c => c.2.managerCall

/-- The changes that the calls report to the master. -/
def reportedChanges (cs : List (Σ β, ClientCall β)) : List Action :=
  cs.flatMap fun c => c.2.changes

@[simp] theorem managerCalls_append (cs cs' : List (Σ β, ClientCall β)) :
    managerCalls (cs ++ cs') = managerCalls cs ++ managerCalls cs' :=
  List.filterMap_append

@[simp] theorem reportedChanges_append (cs cs' : List (Σ β, ClientCall β)) :
    reportedChanges (cs ++ cs') = reportedChanges cs ++ reportedChanges cs' :=
  List.flatMap_append

theorem reportedChanges_report (req : List Action) :
    reportedChanges [⟨_, .storageChange { storageChange := req }⟩] = req := by
  simp [reportedChanges, ClientCall.changes]

/-! ## The loops as scripts -/

namespace Action

/-- The call of a copy action. -/
def copyCall (a : CopyFromAction) : Σ β, ClientCall β :=
  ⟨_, .managerCopyFrom a.srcMgr.uri { key := a.key, dstUri := a.dstMgr.uri }⟩

/-- The call of a remove action. -/
def removeCall (a : RemoveAction) : Σ β, ClientCall β :=
  ⟨_, .managerRemove a.mgr.uri { key := a.key }⟩

/-- The request to a manager that an action of a rule stands for. -/
def managerCall (request : PutRequest) : Action → Option ManagerCall
  | .copyFrom a => some (.copyFrom a.srcMgr.uri { key := a.key, dstUri := a.dstMgr.uri })
  | .remove a => some (.remove a.mgr.uri { key := a.key })
  | .put a => some (.put a.mgr.uri request)
  | .get _ | .notSet => none

/-- The calls of the case `kPutAction` of the loop of `Put`. -/
def putCaseCalls (request : PutRequest) (a : Action) : List (Σ β, ClientCall β) :=
  [⟨_, .managerPut a.putAction.mgr.uri request⟩, ⟨_, .storageChange {}⟩]

/-- The calls that the loop of `Get` makes for an action. -/
def getCalls : Action → List (Σ β, ClientCall β)
  | .copyFrom a => [copyCall a]
  | .remove a => [removeCall a]
  | .get _ | .put _ | .notSet => []

/-- The calls that the loop of `Put` makes for an action that it passes. -/
def putCalls (request : PutRequest) : Action → List (Σ β, ClientCall β)
  | .copyFrom a => [copyCall a]
  | .remove a => removeCall a :: putCaseCalls request (.remove a)
  | .put a => putCaseCalls request (.put a)
  | .get _ | .notSet => []

/-- The calls that the loop of `Put` makes for an action before it fails. -/
def putCallsBefore : Action → List (Σ β, ClientCall β)
  | .remove a => [removeCall a]
  | .get _ | .copyFrom _ | .put _ | .notSet => []

/-- The loop of `Get` passes the action. -/
def passesGet : Action → Bool
  | .copyFrom _ | .remove _ | .notSet => true
  | .get _ | .put _ => false

/-- The loop of `Put` passes the action: a remove action falls through into the
check of a put action without a key. -/
def passesPut (key : String) : Action → Bool
  | .copyFrom _ | .notSet => true
  | .remove a => (Action.remove a).putAction.key = key
  | .put a => (Action.put a).putAction.key = key
  | .get _ => false

/-- The changes that the loop of `Put` collects for an action. -/
def putChanges : Action → List Action
  | .copyFrom a => [.copyFrom a]
  | .remove a => [.remove a, .remove a]
  | .put a => [.put a]
  | .get _ | .notSet => []

/-- The loop of `Put` reports nothing of its own to the master. -/
theorem reportedChanges_putCalls (request : PutRequest) (actions : List Action) :
    reportedChanges (actions.flatMap (putCalls request)) = [] := by
  induction actions with
  | nil => rfl
  | cons a rest ih =>
      rw [List.flatMap_cons, reportedChanges_append, ih]
      cases a <;> rfl

/-- The loop of `Get` reports nothing of its own to the master. -/
theorem reportedChanges_getCalls (actions : List Action) :
    reportedChanges (actions.flatMap getCalls) = [] := by
  induction actions with
  | nil => rfl
  | cons a rest ih =>
      rw [List.flatMap_cons, reportedChanges_append, ih]
      cases a <;> rfl

/-- A change that the loop of `Put` collects is of an action whose request it sends. -/
theorem exists_call_of_putChanges (request : PutRequest) {actions : List Action} {b : Action}
    (h : b ∈ actions.flatMap putChanges) : ∃ c, b.managerCall request = some c ∧
      c ∈ managerCalls (actions.flatMap (putCalls request)) := by
  obtain ⟨a, ha, hb⟩ := List.mem_flatMap.mp h
  have hsent : ∀ c, c ∈ managerCalls (a.putCalls request) →
      c ∈ managerCalls (actions.flatMap (putCalls request)) := by
    intro c hc
    obtain ⟨call, hcall, hcc⟩ := List.mem_filterMap.mp hc
    exact List.mem_filterMap.mpr ⟨call, List.mem_flatMap.mpr ⟨a, ha, hcall⟩, hcc⟩
  cases a with
  | get a => cases hb
  | notSet => cases hb
  | copyFrom a =>
      obtain rfl := List.mem_singleton.mp hb
      exact ⟨_, rfl, hsent _ List.mem_cons_self⟩
  | put a =>
      obtain rfl := List.mem_singleton.mp hb
      exact ⟨_, rfl, hsent _ List.mem_cons_self⟩
  | remove a =>
      obtain rfl : b = .remove a := by simpa [putChanges] using hb
      exact ⟨_, rfl, hsent _ List.mem_cons_self⟩

/-- The requests that the loop of `Get` sends are those of the actions that it
collects. -/
theorem mem_managerCalls_getCalls (request : PutRequest) {actions : List Action}
    (h : ∀ a ∈ actions, a.passesGet) {c : ManagerCall} :
    c ∈ managerCalls (actions.flatMap getCalls) ↔
      ∃ a ∈ reported actions, a.managerCall request = some c := by
  induction actions with
  | nil => simp [managerCalls, reported]
  | cons a rest ih =>
      have hrest := ih fun b hb => h b (by simp [hb])
      rw [List.flatMap_cons, managerCalls_append, List.mem_append, hrest]
      cases a with
      | get a => cases h _ List.mem_cons_self
      | put a => cases h _ List.mem_cons_self
      | notSet => simp [getCalls, managerCalls, reported]
      | copyFrom a =>
          have hcons : reported (.copyFrom a :: rest) = .copyFrom a :: reported rest := by
            simp [reported]
          rw [hcons, List.exists_mem_cons_iff]
          exact or_congr_left (List.mem_singleton.trans
            ⟨fun h => congrArg some h.symm, fun h => (Option.some.inj h).symm⟩)
      | remove a =>
          have hcons : reported (.remove a :: rest) = .remove a :: reported rest := by
            simp [reported]
          rw [hcons, List.exists_mem_cons_iff]
          exact or_congr_left (List.mem_singleton.trans
            ⟨fun h => congrArg some h.symm, fun h => (Option.some.inj h).symm⟩)

end Action

namespace StorageClient

variable {β : Type} {request : PutRequest} {actions : List Action}

theorem executeCopyAction_bind (a : CopyFromAction) (f : Unit → ClientCode β) :
    (executeCopyAction a >>= f) = script [Action.copyCall a] (f ()) := rfl

theorem executeRemoveAction_bind (a : RemoveAction) (f : Unit → ClientCode β) :
    (executeRemoveAction a >>= f) = script [Action.removeCall a] (f ()) := rfl

theorem putCase_bind (request : PutRequest) (a : Action) (f : Unit → ClientCode β) :
    (putCase request a >>= f) =
      if a.putAction.key = request.key then script (a.putCaseCalls request) (f ())
      else .fail .assertion := by
  by_cases h : a.putAction.key = request.key
  · simp only [putCase, h, decide_true]
    rfl
  · simp only [putCase, h, decide_false]
    rfl

/-- The loop of `Get` over actions that it passes. -/
theorem getLoop_bind (h : ∀ a ∈ actions, a.passesGet) (req : List Action)
    (f : List Action → ClientCode β) :
    (getLoop actions req >>= f) =
      script (actions.flatMap Action.getCalls) (f (req ++ Action.reported actions)) := by
  induction actions generalizing req with
  | nil => simp [getLoop, Action.reported]
  | cons a rest ih =>
      have hrest : ∀ a ∈ rest, a.passesGet := fun b hb => h b (by simp [hb])
      cases a with
      | get a => cases h _ List.mem_cons_self
      | put a => cases h _ List.mem_cons_self
      | notSet => simpa [getLoop, Action.getCalls, Action.reported] using ih hrest req
      | copyFrom a =>
          rw [getLoop, bind_assoc, executeCopyAction_bind, ih hrest,
            ← script_append]
          simp [Action.getCalls, Action.reported]
      | remove a =>
          rw [getLoop, bind_assoc, executeRemoveAction_bind, ih hrest, ← script_append]
          simp [Action.getCalls, Action.reported]

/-- The loop of `Get` fails at the first action that it does not pass. -/
theorem getLoop_fail {a : Action} {post : List Action} (h : ∀ a ∈ actions, a.passesGet)
    (ha : a.passesGet = false) (req : List Action) (f : List Action → ClientCode β) :
    (getLoop (actions ++ a :: post) req >>= f) =
      script (actions.flatMap Action.getCalls) (.fail .assertion) := by
  induction actions generalizing req with
  | nil => cases a <;> first | rfl | cases ha
  | cons b rest ih =>
      have hrest : ∀ a ∈ rest, a.passesGet := fun c hc => h c (by simp [hc])
      cases b with
      | get b => cases h _ List.mem_cons_self
      | put b => cases h _ List.mem_cons_self
      | notSet => simpa [getLoop, Action.getCalls] using ih hrest req
      | copyFrom b =>
          rw [List.cons_append, getLoop, bind_assoc, executeCopyAction_bind, ih hrest,
            ← script_append]
          simp [Action.getCalls]
      | remove b =>
          rw [List.cons_append, getLoop, bind_assoc, executeRemoveAction_bind, ih hrest,
            ← script_append]
          simp [Action.getCalls]

/-- The loop of `Put` over actions that it passes. -/
theorem putLoop_bind (h : ∀ a ∈ actions, a.passesPut request.key) (req : List Action)
    (f : List Action → ClientCode β) :
    (putLoop request actions req >>= f) =
      script (actions.flatMap (Action.putCalls request))
        (f (req ++ actions.flatMap Action.putChanges)) := by
  induction actions generalizing req with
  | nil => simp [putLoop]
  | cons a rest ih =>
      have ha := h a List.mem_cons_self
      have hrest : ∀ a ∈ rest, a.passesPut request.key := fun b hb => h b (by simp [hb])
      cases a with
      | get a => cases ha
      | notSet => simpa [putLoop, Action.putCalls, Action.putChanges] using ih hrest req
      | copyFrom a =>
          rw [putLoop, bind_assoc, executeCopyAction_bind, ih hrest,
            ← script_append]
          simp [Action.putCalls, Action.putChanges]
      | remove a =>
          rw [putLoop, bind_assoc, executeRemoveAction_bind, bind_assoc, putCase_bind,
            if_pos (of_decide_eq_true ha), ih hrest, ← script_append, ← script_append]
          simp [Action.putCalls, Action.putChanges]
      | put a =>
          rw [putLoop, bind_assoc, putCase_bind, if_pos (of_decide_eq_true ha), ih hrest,
            ← script_append]
          simp [Action.putCalls, Action.putChanges]

/-- The loop of `Put` fails at the first action that it does not pass. -/
theorem putLoop_fail {a : Action} {post : List Action}
    (h : ∀ a ∈ actions, a.passesPut request.key) (ha : a.passesPut request.key = false)
    (req : List Action) (f : List Action → ClientCode β) :
    (putLoop request (actions ++ a :: post) req >>= f) =
      script (actions.flatMap (Action.putCalls request) ++ a.putCallsBefore)
        (.fail .assertion) := by
  induction actions generalizing req with
  | nil =>
      cases a with
      | copyFrom a => cases ha
      | notSet => cases ha
      | get a => rfl
      | remove a =>
          rw [List.nil_append, putLoop, bind_assoc, executeRemoveAction_bind, bind_assoc,
            putCase_bind, if_neg (of_decide_eq_false ha)]
          rfl
      | put a =>
          rw [List.nil_append, putLoop, bind_assoc, putCase_bind, if_neg (of_decide_eq_false ha)]
          rfl
  | cons b rest ih =>
      have hb := h b List.mem_cons_self
      have hrest : ∀ a ∈ rest, a.passesPut request.key := fun c hc => h c (by simp [hc])
      cases b with
      | get b => cases hb
      | notSet => simpa [putLoop, Action.putCalls] using ih hrest req
      | copyFrom b =>
          rw [List.cons_append, putLoop, bind_assoc, executeCopyAction_bind, ih hrest,
            ← script_append]
          simp [Action.putCalls]
      | remove b =>
          rw [List.cons_append, putLoop, bind_assoc, executeRemoveAction_bind, bind_assoc,
            putCase_bind, if_pos (of_decide_eq_true hb), ih hrest, ← script_append, ← script_append]
          simp [Action.putCalls]
      | put b =>
          rw [List.cons_append, putLoop, bind_assoc, putCase_bind,
            if_pos (of_decide_eq_true hb), ih hrest, ← script_append]
          simp [Action.putCalls]

/-! ## The handlers -/

/-- What `Put` does after its loop. -/
def putReport (req : List Action) : ClientCode Status := do
  let s ← storageChange { storageChange := req }
  check s.isOk
  return .ok

/-- What `Get` does at the end. -/
def getFinish (request : GetRequest) (r : Rule) : ClientCode (Status × GetReply) :=
  match r.action.getLast? with
  | none => .fail .outOfRange
  | some (.get lastAction) => do
      check (lastAction.key = request.key)
      let reply ← executeGetAction lastAction
      return (.ok, reply)
  | some _ => .fail .assertion

/-- What `Get` does after its loop. -/
def getReport (request : GetRequest) (r : Rule) (req : List Action) :
    ClientCode (Status × GetReply) := do
  let s ← storageChange { storageChange := req }
  check s.isOk
  getFinish request r

theorem put_eq {d : RuleDb} {r : Rule} (h : FindsRule d request.key .put r) :
    (put d request : ClientCode Status) = putLoop request r.action [] >>= putReport := by
  have hlookup : d.ruleDb.lookup (RuleDb.getRuleKey request.key .put) = some r := h
  simp only [put, RuleDb.hasMatchingRule, RuleDb.getMatchingRule, hlookup]
  rfl

theorem get_eq {d : RuleDb} {request : GetRequest} {r : Rule}
    (h : FindsRule d request.key .get r) :
    (get d request : ClientCode (Status × GetReply)) =
      getLoop r.action.dropLast [] >>= getReport request r := by
  have hlookup : d.ruleDb.lookup (RuleDb.getRuleKey request.key .get) = some r := h
  simp only [get, RuleDb.hasMatchingRule, RuleDb.getMatchingRule, hlookup]
  rfl

/-- An action of the list fails the test, and those before the first one pass. -/
theorem exists_first_fail {p : Action → Bool} (h : ¬ ∀ a ∈ actions, p a) :
    ∃ pre a post, actions = pre ++ a :: post ∧ (∀ b ∈ pre, p b) ∧ p a = false := by
  obtain ⟨a, ha⟩ : ∃ a, actions.find? (fun a => !p a) = some a := by
    rw [← Option.isSome_iff_exists, List.find?_isSome]
    push Not at h
    simpa using h
  obtain ⟨hfail, pre, post, hsplit, hpre⟩ := List.find?_eq_some_iff_append.mp ha
  exact ⟨pre, a, post, hsplit, by simpa using hpre, by simpa using hfail⟩

/-- `Put` under a rule whose actions its loop passes. -/
theorem put_script {d : RuleDb} {r : Rule} (hrule : FindsRule d request.key .put r)
    (h : ∀ a ∈ r.action, a.passesPut request.key) :
    (put d request : ClientCode Status) = script (r.action.flatMap (Action.putCalls request))
      (putReport (r.action.flatMap Action.putChanges)) := by
  rw [put_eq hrule, putLoop_bind h, List.nil_append]

/-- `Put` under a rule with an action that its loop does not pass. -/
theorem put_script_fail {d : RuleDb} {r : Rule} (hrule : FindsRule d request.key .put r)
    (h : ¬ ∀ a ∈ r.action, a.passesPut request.key) :
    ∃ pre a post, r.action = pre ++ a :: post ∧ (∀ b ∈ pre, b.passesPut request.key) ∧
      a.passesPut request.key = false ∧ (put d request : ClientCode Status) =
        script (pre.flatMap (Action.putCalls request) ++ a.putCallsBefore) (.fail .assertion) := by
  obtain ⟨pre, a, post, hsplit, hpre, hfail⟩ := exists_first_fail h
  refine ⟨pre, a, post, hsplit, hpre, hfail, ?_⟩
  rw [put_eq hrule, hsplit, putLoop_fail hpre hfail]

/-- `Get` under a rule whose actions before the last one its loop passes. -/
theorem get_script {d : RuleDb} {request : GetRequest} {r : Rule}
    (hrule : FindsRule d request.key .get r) (h : ∀ a ∈ r.action.dropLast, a.passesGet) :
    (get d request : ClientCode (Status × GetReply)) =
      script (r.action.dropLast.flatMap Action.getCalls)
        (getReport request r (Action.reported r.action.dropLast)) := by
  rw [get_eq hrule, getLoop_bind h, List.nil_append]

/-- `Get` under a rule with an action before the last one that its loop does not
pass. -/
theorem get_script_fail {d : RuleDb} {request : GetRequest} {r : Rule}
    (hrule : FindsRule d request.key .get r) (h : ¬ ∀ a ∈ r.action.dropLast, a.passesGet) :
    ∃ actions : List Action, (get d request : ClientCode (Status × GetReply)) =
      script (actions.flatMap Action.getCalls) (.fail .assertion) := by
  obtain ⟨pre, a, post, hsplit, hpre, hfail⟩ := exists_first_fail h
  rw [get_eq hrule, hsplit, getLoop_fail hpre hfail]
  exact ⟨_, rfl⟩

end StorageClient

end ProgrammableCaching
