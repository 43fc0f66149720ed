import Mathlib.Data.List.DropRight
import ProgrammableCaching.RuleHistory
import ProgrammableCaching.Threads

/-! A storage client whose rules change while it handles requests. `HasMatchingRule` and
`GetMatchingRule` lock the rule database one after the other, so a rule may be removed between
the two. -/

namespace ProgrammableCaching

open LastWriter Runs Pools Handler

/-! ## The handlers with each access to the database -/

/-- The methods of the rule database, each under its lock. -/
inductive RuleAccess : Type → Type
  | hasMatchingRule (key : String) (op : OperationType) : RuleAccess Bool
  | getMatchingRule (key : String) (op : OperationType) : RuleAccess (Except Failure Rule)
  | addRule (r : Rule) : RuleAccess Unit
  | removeRule (r : Rule) : RuleAccess Unit

def RuleAccess.handle {β : Type} (d : RuleDb) : RuleAccess β → β × RuleDb
  | hasMatchingRule key op => (d.hasMatchingRule key op, d)
  | getMatchingRule key op => (d.getMatchingRule key op, d)
  | addRule r => ((), d.addRule r)
  | removeRule r => ((), d.removeRule r)

/-- A step of a handler: an access to the database or a call to another server. -/
inductive HandlerCall (β : Type) : Type
  | access (c : RuleAccess β)
  | rpc (c : Rpc β)

def HandlerCall.handle {σ : Type} [StorageInterface σ] {β : Type} :
    HandlerCall β → Handler (RuleDb × World σ) β
  | access c => fun (d, w) =>
      let (b, d') := c.handle d
      .ok (b, (d', w))
  | rpc c => fun (d, w) => do
      let (b, w') ← c.handle w
      return (b, (d, w'))

/-- A handler of a storage client, or what is left of one. -/
abbrev RuleThread := Prog HandlerCall Failure

namespace RuleThread

open StorageClient

variable {α : Type}

/-- A thread that makes no access to the database. -/
def ofClient : ClientThread α → RuleThread α
  | .done a => .done a
  | .fail e => .fail e
  | .call c k => .call (.rpc c) fun b => ofClient (k b)

def access {β : Type} (c : RuleAccess β) : RuleThread β := .perform (.access c)

/-- The beginning of `Get` and of `Put`: the check for a rule and the lookup. -/
def withRule (key : String) (op : OperationType) (rest : Rule → ClientThread α) :
    RuleThread α := do
  check (← access (.hasMatchingRule key op))
  let r ← lift (← access (.getMatchingRule key op))
  ofClient (rest r)

def get (request : GetRequest) : RuleThread (Status × GetReply) :=
  withRule request.key .get fun r => getWith r request

def put (request : PutRequest) : RuleThread Status :=
  withRule request.key .put fun r => putWith r request

def installRule (request : InstallRuleRequest) : RuleThread Status := do
  access (.addRule request.rule)
  return .ok

def removeRule (request : RemoveRuleRequest) : RuleThread Status := do
  access (.removeRule request.rule)
  return .ok

/-! ## A handler that is not interrupted -/

section Alone

variable {σ : Type} [StorageInterface σ]

abbrev alone (p : RuleThread α) : Handler (RuleDb × World σ) α := p.eval HandlerCall.handle

end Alone

end RuleThread

/-! ## Runs -/

namespace RuleThread

/-- A request to a storage client. -/
inductive RuleRequest
  | get (request : GetRequest)
  | put (request : PutRequest)
  | installRule (request : InstallRuleRequest)
  | removeRule (request : RemoveRuleRequest)

/-- The thread that handles a request; what it replies does not matter here. -/
def RuleRequest.handler : RuleRequest → RuleThread Unit
  | get request => RuleThread.get request >>= fun _ => pure ()
  | put request => RuleThread.put request >>= fun _ => pure ()
  | installRule request => RuleThread.installRule request >>= fun _ => pure ()
  | removeRule request => RuleThread.removeRule request >>= fun _ => pure ()

/-- A call of a thread with its answer. -/
abbrev Answered := Σ β, HandlerCall β × β

abbrev RuleEvent := Pools.Event (RuleThread Unit) Answered

/-- The thread makes its next call and goes on with the answer. -/
def Step {σ : Type} [StorageInterface σ] (s : RuleDb × World σ) (p : RuleThread Unit)
    (l : Answered) (s' : RuleDb × World σ) (p' : RuleThread Unit) : Prop :=
  ∃ k, p = .call l.2.1 k ∧ l.2.1.handle s = .ok (l.2.2, s') ∧ p' = k l.2.2

/-- The handlers of one client take turns. -/
abbrev RuleStep (σ : Type) [StorageInterface σ] :
    Pool (RuleDb × World σ) (RuleThread Unit) → RuleEvent →
      Pool (RuleDb × World σ) (RuleThread Unit) → Prop :=
  PoolStep (fun p => ∃ request : RuleRequest, p = request.handler) Step

/-- A client without rules and without requests. -/
def idleClient {σ : Type} (w : World σ) : Pool (RuleDb × World σ) (RuleThread Unit) := ⟨({}, w), []⟩

namespace RuleEvent

/-- What the event does to the rules. -/
def ruleCall : RuleEvent → Option RuleCall
  | .step _ ⟨_, .access (.addRule r), _⟩ => some (.addRule r)
  | .step _ ⟨_, .access (.removeRule r), _⟩ => some (.removeRule r)
  | .step _ ⟨_, .access (.hasMatchingRule _ _), _⟩
  | .step _ ⟨_, .access (.getMatchingRule _ _), _⟩
  | .step _ ⟨_, .rpc _, _⟩
  | .spawn _ => none

/-- The event is a step of thread `i`. -/
def isStepOf (i : ℕ) : RuleEvent → Bool
  | .step j _ => j = i
  | .spawn _ => false

end RuleEvent

/-- The rules that have been installed and removed. -/
def ruleCalls (es : List RuleEvent) : List RuleCall := es.filterMap RuleEvent.ruleCall

/-- A lookup finds a rule, and one that was installed for the operation on the key. -/
def FindsInstalled (before : List RuleEvent) : RuleEvent → Prop
  | .step _ ⟨_, .access (.getMatchingRule key op), answer⟩ =>
      ∃ r, answer = .ok r ∧ r.opType = op ∧ r.key = key ∧ .addRule r ∈ ruleCalls before
  | _ => True

/-- The last of the calls about the operation on the key removes its rule. -/
def LastRemoves (calls : List RuleCall) (op : OperationType) (key : String) : Prop :=
  ∃ pre r post, calls = pre ++ .removeRule r :: post ∧ (RuleCall.removeRule r).Concerns op key ∧
    ∀ c ∈ post, ¬ c.Concerns op key

/-- The rules that have been installed and removed since the last step of thread `i`. -/
def changesSince (i : ℕ) (es : List RuleEvent) : List RuleCall :=
  ruleCalls (es.rtakeWhile fun e => !e.isStepOf i)

/-- Since the last step of a thread that looks up a rule, which was its check for it, the rule
has not been removed for good. -/
def CheckStands (before : List RuleEvent) : RuleEvent → Prop
  | .step i ⟨_, .access (.getMatchingRule key op), _⟩ =>
      ¬ LastRemoves (changesSince i before) op key
  | _ => True

@[simp] theorem ruleCalls_append (es es' : List RuleEvent) :
    ruleCalls (es ++ es') = ruleCalls es ++ ruleCalls es' := by
  simp [ruleCalls]

section Runs

variable {σ : Type} [StorageInterface σ] {s s' : RuleDb × World σ} {p p' : RuleThread Unit}
  {l : Answered} {es : List RuleEvent} {e : RuleEvent} {w : World σ} {i : ℕ} {key : String}
  {op : OperationType}

/-! ## The database -/

/-- Only the installations and removals change the rules. -/
theorem Step.db (h : Step s p l s' p') (i : ℕ) :
    s'.1 = s.1.run (ruleCalls [.step i l]) := by
  obtain ⟨k, rfl, hcall, rfl⟩ := h
  obtain ⟨β, c, b⟩ := l
  cases c with
  | access c => cases c <;> cases hcall <;> rfl
  | rpc c =>
      obtain ⟨⟨b', w'⟩, _, hr⟩ := exceptBind_ok.mp hcall
      cases hr
      rfl

theorem db_of_reaches {P : Pool (RuleDb × World σ) (RuleThread Unit)}
    (h : Reaches (RuleStep σ) (idleClient w) es P) :
    P.state.1 = RuleDb.run {} (ruleCalls es) := by
  induction h with
  | nil => rfl
  | snoc _ hstep ih =>
      rw [ruleCalls_append, RuleDb.run_append, ← ih]
      cases hstep with
      | spawn => rfl
      | step _ hone => exact hone.db _

/-! ## Where a handler is -/

/-- The thread makes no more accesses to the rules. -/
inductive Quiet : RuleThread Unit → Prop
  | done : Quiet (.done ())
  | fail (e : Failure) : Quiet (.fail e)
  | call {β : Type} {c : Rpc β} {k : β → RuleThread Unit} : (∀ b, Quiet (k b)) →
      Quiet (.call (.rpc c) k)

/-- The last step of thread `i` was a check that found a rule. -/
def Checked (es : List RuleEvent) (i : ℕ) (key : String) (op : OperationType) : Prop :=
  ∃ pre post, es = pre ++ .step i ⟨Bool, .access (.hasMatchingRule key op), true⟩ :: post ∧
    (∀ e ∈ post, RuleEvent.isStepOf i e = false) ∧ RuleMap.of (ruleCalls pre) op key ≠ none

inductive Phase (es : List RuleEvent) (i : ℕ) : RuleThread Unit → Prop
  | checking {key : String} {op : OperationType} {k : Bool → RuleThread Unit}
      {k' : Except Failure Rule → RuleThread Unit} : op.Declared → Quiet (k false) →
      k true = .call (.access (.getMatchingRule key op)) k' → (∀ b, Quiet (k' b)) →
      Phase es i (.call (.access (.hasMatchingRule key op)) k)
  | lookingUp {key : String} {op : OperationType} {k : Except Failure Rule → RuleThread Unit} :
      op.Declared → Checked es i key op → (∀ b, Quiet (k b)) →
      Phase es i (.call (.access (.getMatchingRule key op)) k)
  | adding {r : Rule} {k : Unit → RuleThread Unit} : Quiet (k ()) →
      Phase es i (.call (.access (.addRule r)) k)
  | removing {r : Rule} {k : Unit → RuleThread Unit} : Quiet (k ()) →
      Phase es i (.call (.access (.removeRule r)) k)
  | quiet {p : RuleThread Unit} : Quiet p → Phase es i p

theorem quiet_ofClient {α : Type} (p : ClientThread α) :
    Quiet (ofClient p >>= fun _ => pure ()) := by
  induction p with
  | done a => exact .done
  | fail e => exact .fail e
  | call c k ih => exact .call ih

theorem phase_withRule {α : Type} (hop : op.Declared) (rest : Rule → ClientThread α) :
    Phase es i (withRule key op rest >>= fun _ => pure ()) := by
  refine .checking hop (.fail .assertion) rfl fun answer => ?_
  cases answer with
  | error e => exact .fail e
  | ok r => exact quiet_ofClient (rest r)

/-- A new handler of `Get` or `Put` is at its check. -/
theorem phase_handler (request : RuleRequest) : Phase es i request.handler := by
  cases request with
  | get request => exact phase_withRule OperationType.declared_get _
  | put request => exact phase_withRule OperationType.declared_put _
  | installRule request => exact .adding .done
  | removeRule request => exact .removing .done

theorem Checked.snoc (h : Checked es i key op) (he : RuleEvent.isStepOf i e = false) :
    Checked (es ++ [e]) i key op := by
  obtain ⟨pre, post, rfl, hpost, hrule⟩ := h
  refine ⟨pre, post ++ [e], by simp, fun e' he' => ?_, hrule⟩
  rcases List.mem_append.mp he' with he' | he'
  · exact hpost e' he'
  · rwa [List.mem_singleton.mp he']

/-- The steps of other threads leave a thread where it is. -/
theorem Phase.snoc (h : Phase es i p) (he : RuleEvent.isStepOf i e = false) :
    Phase (es ++ [e]) i p := by
  cases h with
  | checking hop hfalse htrue hk => exact .checking hop hfalse htrue hk
  | lookingUp hop hchecked hk => exact .lookingUp hop (hchecked.snoc he) hk
  | adding hk => exact .adding hk
  | removing hk => exact .removing hk
  | quiet hp => exact .quiet hp

theorem Phase.step (h : Phase es i p) (hstep : Step s p l s' p')
    (hdb : s.1 = RuleDb.run {} (ruleCalls es)) : Phase (es ++ [.step i l]) i p' := by
  obtain ⟨β, c, b⟩ := l
  obtain ⟨k, rfl, hcall, rfl⟩ : ∃ k, p = .call c k ∧ c.handle s = .ok (b, s') ∧ p' = k b := hstep
  cases h with
  | @checking key op _ k' hop hfalse htrue hk =>
      cases hcall
      cases hmatch : s.1.hasMatchingRule key op with
      | false => exact .quiet hfalse
      | true =>
          rw [htrue]
          refine .lookingUp hop ⟨es, [], by simp, by simp, ?_⟩ hk
          rw [← RuleDb.lookup_run (.inl hop), ← hdb]
          exact Option.isSome_iff_ne_none.mp hmatch
  | lookingUp hop hchecked hk => exact .quiet (hk b)
  | adding hk => exact .quiet hk
  | removing hk => exact .quiet hk
  | quiet hp =>
      cases c with
      | access c => cases hp
      | rpc c =>
          cases hp with
          | call hk => exact .quiet (hk b)

/-- The rule that a thread is about to look up. -/
def nextLookup : RuleThread Unit → Option (String × OperationType)
  | .call (.access (.getMatchingRule key op)) _ => some (key, op)
  | _ => none

/-- A thread that is about to look up a rule has just found one in its check. -/
theorem Phase.of_nextLookup (h : Phase es i p) (hp : nextLookup p = some (key, op)) :
    op.Declared ∧ Checked es i key op := by
  cases h with
  | lookingUp hop hchecked _ =>
      cases hp
      exact ⟨hop, hchecked⟩
  | checking => cases hp
  | adding => cases hp
  | removing => cases hp
  | quiet hquiet => cases hquiet <;> cases hp

/-- Every thread of a run is in one of the phases. -/
theorem phase_of_reaches {P : Pool (RuleDb × World σ) (RuleThread Unit)}
    (h : Reaches (RuleStep σ) (idleClient w) es P) :
    ∀ i p, P.threads[i]? = some p → Phase es i p := by
  induction h with
  | nil =>
      intro i p hi
      simp [idleClient] at hi
  | snoc hreach hstep ih =>
      intro i p hi
      have hdb := db_of_reaches hreach
      cases hstep with
      | spawn hstart =>
          obtain ⟨request, rfl⟩ := hstart
          rcases getElem?_append_cases hi with ⟨_, rfl⟩ | hi
          · exact phase_handler request
          · exact (ih i p hi).snoc rfl
      | step hj hone =>
          rcases getElem?_set_cases hj hi with ⟨rfl, rfl⟩ | ⟨hne, hi⟩
          · exact (ih _ _ hj).step hone hdb
          · exact (ih i p hi).snoc (by simpa [RuleEvent.isStepOf] using Ne.symm hne)

/-! ## The lookup -/

/-- A rule that was there is gone exactly when the last of the calls about it removes it. -/
theorem after_eq_none_iff {o : Option Rule} (ho : o ≠ none) (calls : List RuleCall) :
    after (RuleCall.effect op key) o calls = none ↔ LastRemoves calls op key := by
  rw [after_eq_iff_of_ne ho.symm]
  simp only [RuleCall.effect_eq_none]
  constructor
  · rintro ⟨pre, c, post, rfl, hc, hpost⟩
    obtain ⟨hconcerns, houtcome⟩ := RuleCall.effect_eq_some.mp hc
    cases c with
    | addRule r => cases houtcome
    | removeRule r => exact ⟨pre, r, post, rfl, hconcerns, hpost⟩
  · rintro ⟨pre, r, post, rfl, hconcerns, hpost⟩
    exact ⟨pre, _, post, rfl, RuleCall.effect_eq_some.mpr ⟨hconcerns, rfl⟩, hpost⟩

/-- Behind the last step of a thread come the events that are not its own. -/
theorem changesSince_eq {pre post : List RuleEvent} (he : RuleEvent.isStepOf i e = true)
    (hpost : ∀ e ∈ post, RuleEvent.isStepOf i e = false) :
    changesSince i (pre ++ e :: post) = ruleCalls post := by
  have hall : ∀ e ∈ post.reverse, (!RuleEvent.isStepOf i e) = true := by
    intro e' he'
    simp [hpost e' (List.mem_reverse.mp he')]
  simp [changesSince, List.rtakeWhile, List.takeWhile_append_of_pos hall, he]

/-- What a lookup behind a check answers: an installed rule, or that there is none when the rule
has been removed in between. -/
theorem getMatchingRule_of_checked (hop : op.Declared) (h : Checked es i key op) :
    (∃ r, (RuleDb.run {} (ruleCalls es)).getMatchingRule key op = .ok r ∧ r.opType = op ∧
        r.key = key ∧ .addRule r ∈ ruleCalls es ∧ ¬ LastRemoves (changesSince i es) op key) ∨
      (RuleDb.run {} (ruleCalls es)).getMatchingRule key op = .error .outOfRange ∧
        LastRemoves (changesSince i es) op key := by
  obtain ⟨pre, post, rfl, hpost, hrule⟩ := h
  have hcalls : ruleCalls (pre ++ .step i ⟨Bool, .access (.hasMatchingRule key op), true⟩ :: post) =
      ruleCalls pre ++ ruleCalls post := by
    rw [ruleCalls_append]
    rfl
  have hgone : RuleMap.of (ruleCalls pre ++ ruleCalls post) op key = none ↔
      LastRemoves (ruleCalls post) op key := by
    rw [RuleMap.of, after_append]
    exact after_eq_none_iff hrule _
  rw [changesSince_eq (by simp [RuleEvent.isStepOf]) hpost, hcalls, RuleDb.getMatchingRule,
    RuleDb.lookup_run (.inl hop), ← hgone]
  cases hmap : RuleMap.of (ruleCalls pre ++ ruleCalls post) op key with
  | none => exact .inr ⟨rfl, rfl⟩
  | some r =>
      obtain ⟨pre', post', heq, ⟨hr, hkey⟩, _⟩ := RuleMap.of_eq_some.mp hmap
      exact .inl ⟨r, rfl, hr, hkey, by simp [heq], by simp⟩

theorem findsInstalled_iff {P P' : Pool (RuleDb × World σ) (RuleThread Unit)}
    (h : Reaches (RuleStep σ) (idleClient w) es P) (hstep : RuleStep σ P e P') :
    FindsInstalled es e ↔ CheckStands es e := by
  have hdb := db_of_reaches h
  cases hstep with
  | spawn => exact Iff.rfl
  | @step s s' ts i p p' l hi hone =>
      have hphase := phase_of_reaches h i p hi
      obtain ⟨β, c, b⟩ := l
      obtain ⟨k, rfl, hcall, rfl⟩ : ∃ k, p = .call c k ∧ c.handle s = .ok (b, s') ∧ p' = k b := hone
      cases c with
      | rpc c => exact Iff.rfl
      | access c =>
          cases c with
          | hasMatchingRule key op => exact Iff.rfl
          | addRule r => exact Iff.rfl
          | removeRule r => exact Iff.rfl
          | getMatchingRule key op =>
              cases hcall
              obtain ⟨hop, hchecked⟩ := hphase.of_nextLookup rfl
              simp only [FindsInstalled, CheckStands]
              rw [hdb]
              rcases getMatchingRule_of_checked hop hchecked with
                ⟨r, hr, hrop, hrkey, hadded, hstands⟩ | ⟨herror, hremoved⟩
              · exact iff_of_true ⟨r, hr, hrop, hrkey, hadded⟩ hstands
              · rw [herror]
                exact iff_of_false (by simp) (not_not.mpr hremoved)

/-- **Lookups under concurrent changes.** In a run of the handlers of one client every lookup
finds a rule that was installed for its operation and key, and does not throw, exactly when no
rule is removed for good between the check and the lookup of a handler. -/
theorem findsInstalled_throughout_iff {P : Pool (RuleDb × World σ) (RuleThread Unit)}
    (h : Reaches (RuleStep σ) (idleClient w) es P) :
    EveryStep FindsInstalled es ↔ EveryStep CheckStands es := by
  refine everyStep_congr fun es' e hpre => ?_
  obtain ⟨P', hrun⟩ := h.throughout _ hpre
  obtain ⟨P, hreach, hstep⟩ := Reaches.snoc_iff.mp hrun
  exact findsInstalled_iff hreach hstep

end Runs

section Example

def getRule : Rule := { opType := .get, key := "k", action := [.get ⟨"k", ⟨"m", "m:1"⟩⟩] }

/-- A rule is installed, and a `Get` for it is past its check. -/
def checkedGet : List RuleEvent :=
  [.spawn (RuleRequest.installRule ⟨"c", getRule⟩).handler,
    .step 0 ⟨_, .access (.addRule getRule), ()⟩,
    .spawn (RuleRequest.get ⟨"k"⟩).handler,
    .step 1 ⟨_, .access (.hasMatchingRule "k" .get), true⟩]

def foundRule : List RuleEvent :=
  checkedGet ++ [.step 1 ⟨_, .access (.getMatchingRule "k" .get), .ok getRule⟩]

/-- The rule is removed before the lookup. -/
def lostRule : List RuleEvent :=
  checkedGet ++ [.spawn (RuleRequest.removeRule ⟨"c", getRule⟩).handler,
      .step 2 ⟨_, .access (.removeRule getRule), ()⟩] ++
    [.step 1 ⟨_, .access (.getMatchingRule "k" .get), .error .outOfRange⟩]

theorem findsInstalled_throughout_iff_foundRule :
    EveryStep FindsInstalled foundRule ↔ EveryStep CheckStands foundRule :=
  findsInstalled_throughout_iff (w := ({} : World MapStorage))
    (.cons (.spawn ⟨_, rfl⟩) (.cons (.step rfl ⟨_, rfl, rfl, rfl⟩) (.cons (.spawn ⟨_, rfl⟩)
      (.cons (.step rfl ⟨_, rfl, rfl, rfl⟩) (.cons (.step rfl ⟨_, rfl, rfl, rfl⟩) .nil)))))

/-- The `Get` that has found its rule in the check is thrown out of the lookup. -/
theorem lookup_throws_after_removal :
    (∃ P, Reaches (RuleStep MapStorage) (idleClient {}) lostRule P) ∧
      ¬ EveryStep FindsInstalled lostRule := by
  refine ⟨⟨_, .cons (.spawn ⟨_, rfl⟩) (.cons (.step rfl ⟨_, rfl, rfl, rfl⟩)
    (.cons (.spawn ⟨_, rfl⟩) (.cons (.step rfl ⟨_, rfl, rfl, rfl⟩) (.cons (.spawn ⟨_, rfl⟩)
      (.cons (.step rfl ⟨_, rfl, rfl, rfl⟩) (.cons (.step rfl ⟨_, rfl, rfl, rfl⟩) .nil))))))⟩,
    fun h => ?_⟩
  obtain ⟨r, hr, _⟩ := (everyStep_snoc.mp h).2
  cases hr

end Example

end RuleThread

end ProgrammableCaching
