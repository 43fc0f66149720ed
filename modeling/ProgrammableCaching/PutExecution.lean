import ProgrammableCaching.ClientCalls

/-! What `Put` makes of its rule: the requests it sends to the managers and the
changes it reports to the master, action by action. -/

namespace ProgrammableCaching

open Pools Traces RpcInterfaces

namespace Action

/-- Without remove actions the loop of `Put` sends one request for each action. -/
theorem managerCalls_putCalls (request : PutRequest) {actions : List Action}
    (hremove : ∀ a ∈ actions, ¬ a.isRemove)
    (hactions : ∀ a ∈ actions, a.isCopy ∨ a.isRemove ∨ a.isPutOf request.key) :
    (managerCalls (actions.flatMap (putCalls request))).map some =
      actions.map (managerCall request) := by
  induction actions with
  | nil => rfl
  | cons a rest ih =>
      have hrest := ih (fun b hb => hremove b (by simp [hb])) fun b hb => hactions b (by simp [hb])
      rw [List.flatMap_cons, managerCalls_append, List.map_append, hrest, List.map_cons]
      cases a with
      | copyFrom a => rfl
      | put a => rfl
      | remove a => exact absurd rfl (hremove _ List.mem_cons_self)
      | get a => simp [isCopy, isRemove, isPutOf] at hactions
      | notSet => simp [isCopy, isRemove, isPutOf] at hactions

/-- Every remove action is collected twice. -/
theorem length_putChanges {key : String} {actions : List Action}
    (hactions : ∀ a ∈ actions, a.isCopy ∨ a.isRemove ∨ a.isPutOf key) :
    (actions.flatMap putChanges).length = actions.length + actions.countP isRemove := by
  induction actions with
  | nil => rfl
  | cons a rest ih =>
      have hrest := ih fun b hb => hactions b (by simp [hb])
      rw [List.flatMap_cons, List.length_append, hrest, List.countP_cons, List.length_cons]
      cases a with
      | copyFrom a => simp [putChanges, isRemove]; omega
      | put a => simp [putChanges, isRemove]; omega
      | remove a => simp [putChanges, isRemove]; omega
      | get a => simp [isCopy, isRemove, isPutOf] at hactions
      | notSet => simp [isCopy, isRemove, isPutOf] at hactions

/-- Without remove actions every action is collected once. -/
theorem putChanges_eq {key : String} {actions : List Action}
    (hremove : ∀ a ∈ actions, ¬ a.isRemove)
    (hactions : ∀ a ∈ actions, a.isCopy ∨ a.isRemove ∨ a.isPutOf key) :
    actions.flatMap putChanges = actions := by
  induction actions with
  | nil => rfl
  | cons a rest ih =>
      rw [List.flatMap_cons, ih (fun b hb => hremove b (by simp [hb]))
        fun b hb => hactions b (by simp [hb])]
      cases a with
      | copyFrom a => rfl
      | put a => rfl
      | remove a => exact absurd rfl (hremove _ List.mem_cons_self)
      | get a => simp [isCopy, isRemove, isPutOf] at hactions
      | notSet => simp [isCopy, isRemove, isPutOf] at hactions

end Action

namespace StorageClient

/-- Whatever the managers answer, and while the master accepts the reports, `Put`
does not fail; and when it comes back, with `OK`, it has sent one request for each
action of the rule and reported each action once, both in the order of the rule. -/
def ExecutesFaithfully (d : RuleDb) (request : PutRequest) (r : Rule) : Prop :=
  ∀ ts p', Allowed ClientCall.Accepts ts → Trace (put d request : ClientCode Status) ts p' →
    (∀ e, p' ≠ .fail e) ∧ ∀ s, p' = .done s → s = .ok ∧
      (managerCalls (callsOf ts)).map some = r.action.map (Action.managerCall request) ∧
      reportedChanges (callsOf ts) = r.action

variable {d : RuleDb} {request : PutRequest} {r : Rule}

/-- The end of `Put`: it waits for the master, or it has come back. -/
theorem trace_putReport {req : List Action} {ts : List (Answered ClientCall)}
    {p' : ClientCode Status} (hgood : Allowed ClientCall.Accepts ts)
    (h : Trace (putReport req) ts p') :
    (∃ c k, p' = @Prog.call ClientCall Failure Status Status c k) ∨
      p' = .done .ok ∧ callsOf ts = [⟨_, .storageChange { storageChange := req }⟩] := by
  rcases trace_call.mp h with ⟨_, rfl⟩ | ⟨s, ts', rfl, htail⟩
  · exact .inl ⟨_, _, rfl⟩
  · obtain rfl : s = .ok := (List.forall_mem_cons.mp hgood).1
    obtain ⟨rfl, rfl⟩ := trace_done.mp htail
    exact .inr ⟨rfl, rfl⟩

/-- The end of `Put` comes back when the master accepts the report. -/
theorem exists_trace_putReport (req : List Action) :
    ∃ ts, callsOf ts = [⟨_, .storageChange { storageChange := req }⟩] ∧
      Allowed ClientCall.Accepts ts ∧ Trace (putReport req) ts (.done .ok) := by
  refine ⟨[⟨Status, .storageChange { storageChange := req }, .ok⟩], rfl, ?_, .call _ _ (.nil _)⟩
  simp [Allowed, ClientCall.Accepts]

/-- A remove action is reported twice, or the assertion behind it fails. -/
theorem not_isRemove_of_executesFaithfully (hrule : FindsRule d request.key .put r)
    (hactions : ∀ a ∈ r.action, a.isCopy ∨ a.isRemove ∨ a.isPutOf request.key)
    (hfaithful : ExecutesFaithfully d request r) : ∀ a ∈ r.action, ¬ a.isRemove := by
  by_cases hpass : ∀ a ∈ r.action, a.passesPut request.key
  · -- the loop comes to its end, and reports each remove action twice
    have hput := put_script hrule hpass
    obtain ⟨ts, hcalls, hgood, htrace⟩ := exists_trace ClientCall.exists_accepts
      (r.action.flatMap (Action.putCalls request))
      (putReport (r.action.flatMap Action.putChanges))
    obtain ⟨ts', hcalls', hgood', htrace'⟩ :=
      exists_trace_putReport (r.action.flatMap Action.putChanges)
    rw [← hput] at htrace
    obtain ⟨_, hdone⟩ := hfaithful _ _ (List.forall_mem_append.mpr ⟨hgood, hgood'⟩)
      (htrace.append htrace')
    obtain ⟨_, _, hreported⟩ := hdone _ rfl
    rw [callsOf_append, reportedChanges_append, hcalls, hcalls',
      Action.reportedChanges_putCalls, reportedChanges_report, List.nil_append] at hreported
    have hlen := congrArg List.length hreported
    have hcount := Action.length_putChanges hactions
    have hzero : r.action.countP Action.isRemove = 0 := by omega
    exact List.countP_eq_zero.mp hzero
  · obtain ⟨_, _, _, _, _, _, hput⟩ := put_script_fail hrule hpass
    obtain ⟨ts, _, hgood, htrace⟩ := exists_trace ClientCall.exists_accepts _
      (.fail .assertion : ClientCode Status)
    rw [← hput] at htrace
    exact absurd rfl ((hfaithful _ _ hgood htrace).1 .assertion)

theorem executesFaithfully_of_not_isRemove (hrule : FindsRule d request.key .put r)
    (hactions : ∀ a ∈ r.action, a.isCopy ∨ a.isRemove ∨ a.isPutOf request.key)
    (hremove : ∀ a ∈ r.action, ¬ a.isRemove) : ExecutesFaithfully d request r := by
  intro ts p' hgood htrace
  have hpass : ∀ a ∈ r.action, a.passesPut request.key := by
    intro a ha
    have hshape := hactions a ha
    have hno := hremove a ha
    cases a <;> simp_all [Action.isCopy, Action.isRemove, Action.isPutOf, Action.passesPut,
      Action.putAction]
  rw [put_script hrule hpass, Action.putChanges_eq hremove hactions] at htrace
  rcases trace_script.mp htrace with ⟨c, rest, _, rfl⟩ | ⟨ts₁, ts₂, rfl, hcalls, hend⟩
  · exact ⟨fun _ h => (by cases h), fun _ h => (by cases h)⟩
  · rcases trace_putReport hgood.of_append_right hend with ⟨c, k, rfl⟩ | ⟨rfl, hlast⟩
    · exact ⟨fun _ h => (by cases h), fun _ h => (by cases h)⟩
    · refine ⟨fun _ h => (by cases h), fun s hs => ?_⟩
      cases hs
      refine ⟨rfl, ?_, ?_⟩
      · rw [callsOf_append, hcalls, hlast, managerCalls_append, List.map_append,
          Action.managerCalls_putCalls request hremove hactions]
        exact List.append_nil _
      · rw [callsOf_append, hcalls, hlast, reportedChanges_append,
          Action.reportedChanges_putCalls, reportedChanges_report, List.nil_append]

/-- **Executing a PUT rule.** For a rule of copy and remove actions and put actions
of its key, `Put` executes the rule faithfully exactly when it has no remove
action. -/
theorem executesFaithfully_iff (hrule : FindsRule d request.key .put r)
    (hactions : ∀ a ∈ r.action, a.isCopy ∨ a.isRemove ∨ a.isPutOf request.key) :
    ExecutesFaithfully d request r ↔ ∀ a ∈ r.action, ¬ a.isRemove :=
  ⟨not_isRemove_of_executesFaithfully hrule hactions,
    executesFaithfully_of_not_isRemove hrule hactions⟩

section Example

open World.TwoManagers

/-- Put the value at the first manager and copy it to the second. -/
def putAndCopy : Rule :=
  { opType := .put, key := "k", action := [.put ⟨"k", first⟩, .copyFrom ⟨"k", second, first⟩] }

theorem executesFaithfully_iff_putAndCopy :
    ExecutesFaithfully (({} : RuleDb).addRule putAndCopy) ⟨"k", "v"⟩ putAndCopy ↔
      ∀ a ∈ putAndCopy.action, ¬ a.isRemove :=
  executesFaithfully_iff (by decide) (by decide)

/-- Put the value at the first manager and remove what the second one holds. -/
def putAndRemove : Rule :=
  { opType := .put, key := "k", action := [.put ⟨"k", first⟩, .remove ⟨"k", second⟩] }

/-- After the removal the assertion of the case `kPutAction` fails. -/
theorem remove_falls_through :
    FindsRule (({} : RuleDb).addRule putAndRemove) "k" .put putAndRemove ∧
      (∃ ts, Allowed ClientCall.Accepts ts ∧
        Trace (put (({} : RuleDb).addRule putAndRemove) ⟨"k", "v"⟩ : ClientCode Status) ts
          (.fail .assertion)) ∧
      ¬ ExecutesFaithfully (({} : RuleDb).addRule putAndRemove) ⟨"k", "v"⟩ putAndRemove := by
  have hfail : ∃ ts, Allowed ClientCall.Accepts ts ∧
      Trace (put (({} : RuleDb).addRule putAndRemove) ⟨"k", "v"⟩ : ClientCode Status) ts
        (.fail .assertion) := by
    refine ⟨[⟨_, .managerPut first.uri ⟨"k", "v"⟩, .ok⟩, ⟨_, .storageChange {}, .ok⟩,
      ⟨_, .managerRemove second.uri ⟨"k"⟩, .ok⟩], ?_, ?_⟩
    · simp [Allowed, ClientCall.Accepts]
    · rw [put_eq (r := putAndRemove) (by decide)]
      exact .call _ _ (.call _ _ (.call _ _ (.nil _)))
  obtain ⟨ts, hgood, htrace⟩ := hfail
  exact ⟨by decide, ⟨ts, hgood, htrace⟩, fun h => (h ts _ hgood htrace).1 .assertion rfl⟩

end Example

end StorageClient

end ProgrammableCaching
