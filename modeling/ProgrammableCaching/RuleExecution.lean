import ProgrammableCaching.World

/-! What executing a rule does: the storage operations of its actions in order,
and one report of the actions to the master at the end. -/

namespace ProgrammableCaching

open UnorderedMap Replicas Handler RpcInterfaces

namespace Action

/-- The storage operation of an action; a put action stores `v`. -/
def op (v : String) : Action → Option (Op String String String)
  | .copyFrom a => some (.copy a.srcMgr.uri a.dstMgr.uri a.key)
  | .remove a => some (.remove a.mgr.uri a.key)
  | .put a => some (.put a.mgr.uri a.key v)
  | .get _ | .notSet => none

/-- The storage operations of a list of actions. -/
def ops (v : String) (actions : List Action) : List (Op String String String) :=
  actions.filterMap (op v)

/-- The uri of the manager that the client calls for the action. -/
def target : Action → Option String
  | .copyFrom a => some a.srcMgr.uri
  | .remove a => some a.mgr.uri
  | .put a => some a.mgr.uri
  | .get a => some a.mgr.uri
  | .notSet => none

/-- The changes a client reports after executing the actions. -/
def reported (actions : List Action) : List Action :=
  actions.filter (· ≠ .notSet)

@[simp] theorem ops_nil (v : String) : ops v [] = [] := rfl

@[simp] theorem ops_cons_copyFrom (v : String) (a : CopyFromAction) (rest : List Action) :
    ops v (.copyFrom a :: rest) = .copy a.srcMgr.uri a.dstMgr.uri a.key :: ops v rest := rfl

@[simp] theorem ops_cons_remove (v : String) (a : RemoveAction) (rest : List Action) :
    ops v (.remove a :: rest) = .remove a.mgr.uri a.key :: ops v rest := rfl

@[simp] theorem ops_cons_put (v : String) (a : PutAction) (rest : List Action) :
    ops v (.put a :: rest) = .put a.mgr.uri a.key v :: ops v rest := rfl

@[simp] theorem ops_cons_get (v : String) (a : GetAction) (rest : List Action) :
    ops v (.get a :: rest) = ops v rest := rfl

@[simp] theorem ops_cons_notSet (v : String) (rest : List Action) :
    ops v (.notSet :: rest) = ops v rest := rfl

end Action

namespace World

variable {σ : Type} [StorageInterface σ] [LawfulStorage σ]

/-- The world after the storage operations `ops` and a report of `changes`. -/
structure Executed (ops : List (Op String String String)) (changes : List Action)
    (w w' : World σ) : Prop where
  value : w'.value = run "" w.value ops
  running : ∀ uri, w'.Running uri ↔ w.Running uri
  master : w'.master = (w.master.storageChange { storageChange := changes }).2

/-- Reporting the changes after the operations. -/
theorem Effect.report {ops : List (Op String String String)} {w w' : World σ}
    (h : Effect ops w w') (changes : List Action) {r : Status × World σ}
    (hr : World.storageChange { storageChange := changes } w' = .ok r) :
    r.1 = .ok ∧ Executed ops changes w r.2 := by
  cases hr
  refine ⟨rfl, h.value, h.running, ?_⟩
  rw [← h.master]
  rfl

end World

namespace StorageClient

open World

variable {σ : Type} [StorageInterface σ] [LawfulStorage σ]

/-! ## Single actions -/

theorem executeCopyAction_ok {a : CopyFromAction} {w : World σ} {r : Unit × World σ}
    (h : (executeCopyAction a : Handler (World σ) _) w = .ok r) :
    w.Running a.srcMgr.uri ∧ Effect [.copy a.srcMgr.uri a.dstMgr.uri a.key] w r.2 := by
  obtain ⟨s, w', hcall, hr⟩ := bind_ok.mp h
  cases hr
  exact managerCopyFrom_ok hcall

theorem executeRemoveAction_ok {a : RemoveAction} {w : World σ} {r : Unit × World σ}
    (h : (executeRemoveAction a : Handler (World σ) _) w = .ok r) :
    w.Running a.mgr.uri ∧ Effect [.remove a.mgr.uri a.key] w r.2 := by
  obtain ⟨s, w', hcall, hr⟩ := bind_ok.mp h
  cases hr
  exact managerRemove_ok hcall

theorem executePutAction_ok {a : PutAction} {request : PutRequest} {w : World σ}
    {r : Unit × World σ} (h : (executePutAction a request : Handler (World σ) _) w = .ok r) :
    w.Running a.mgr.uri ∧ Effect [.put a.mgr.uri request.key request.value] w r.2 := by
  obtain ⟨s, w₁, hcall, h₁⟩ := bind_ok.mp h
  obtain ⟨s', w₂, hreport, hr⟩ := bind_ok.mp h₁
  obtain ⟨hrun, heff⟩ := managerPut_ok hcall
  cases hreport
  cases hr
  exact ⟨hrun, heff.value, heff.running, heff.master⟩

theorem executeGetAction_ok {a : GetAction} {w : World σ} {r : GetReply × World σ}
    (h : (executeGetAction a : Handler (World σ) _) w = .ok r) :
    r.1 = { value := (w.value a.mgr.uri a.key).getD "" } ∧ Effect [] w r.2 := by
  obtain ⟨⟨s, reply⟩, w', hcall, hr⟩ := bind_ok.mp h
  cases hr
  obtain ⟨hreply, heff⟩ := managerGet_ok hcall
  exact ⟨congrArg Prod.snd hreply, heff⟩

/-! ## The loops -/

/-- The actions the loop of `Get` passes over without a failed assertion. -/
def GetAllowed (a : Action) : Prop := a.isCopy ∨ a.isRemove ∨ a = .notSet

/-- The loop of `Get` executes the actions in order and collects them. -/
theorem getLoop_ok {actions req : List Action} {w : World σ} {r : List Action × World σ}
    (h : (getLoop actions req : Handler (World σ) _) w = .ok r) :
    r.1 = req ++ Action.reported actions ∧ Effect (Action.ops "" actions) w r.2 := by
  induction actions generalizing req w with
  | nil =>
      cases h
      exact ⟨by simp [Action.reported], Effect.refl w⟩
  | cons a rest ih =>
      cases a with
      | get a => cases h
      | put a => cases h
      | copyFrom a =>
          obtain ⟨_, w₁, hexec, hrest⟩ := bind_ok.mp h
          obtain ⟨hreq, heff⟩ := ih hrest
          exact ⟨by simp [hreq, Action.reported], (executeCopyAction_ok hexec).2.trans heff⟩
      | remove a =>
          obtain ⟨_, w₁, hexec, hrest⟩ := bind_ok.mp h
          obtain ⟨hreq, heff⟩ := ih hrest
          exact ⟨by simp [hreq, Action.reported], (executeRemoveAction_ok hexec).2.trans heff⟩
      | notSet =>
          obtain ⟨hreq, heff⟩ := ih (by simpa [getLoop] using h)
          exact ⟨by simp [hreq, Action.reported], heff⟩

/-- The managers that a completed loop of `Get` calls are running. -/
theorem getLoop_running {actions req : List Action} {w : World σ} {r : List Action × World σ}
    (h : (getLoop actions req : Handler (World σ) _) w = .ok r) :
    ∀ a ∈ actions, ∀ uri ∈ a.target, w.Running uri := by
  induction actions generalizing req w with
  | nil => simp
  | cons a rest ih =>
      intro b hb uri huri
      cases a with
      | get a => cases h
      | put a => cases h
      | copyFrom a =>
          obtain ⟨_, w₁, hexec, hrest⟩ := bind_ok.mp h
          obtain ⟨hrun, heff⟩ := executeCopyAction_ok hexec
          rcases List.mem_cons.mp hb with rfl | hmem
          · cases huri
            exact hrun
          · exact (heff.running uri).mp (ih hrest b hmem uri huri)
      | remove a =>
          obtain ⟨_, w₁, hexec, hrest⟩ := bind_ok.mp h
          obtain ⟨hrun, heff⟩ := executeRemoveAction_ok hexec
          rcases List.mem_cons.mp hb with rfl | hmem
          · cases huri
            exact hrun
          · exact (heff.running uri).mp (ih hrest b hmem uri huri)
      | notSet =>
          rcases List.mem_cons.mp hb with rfl | hmem
          · cases huri
          · exact ih (by simpa [getLoop] using h) b hmem uri huri

/-- The loop of `Get` completes when every manager it calls is running. -/
theorem getLoop_total {actions : List Action} (req : List Action) {w : World σ}
    (hallowed : ∀ a ∈ actions, GetAllowed a)
    (hrun : ∀ a ∈ actions, ∀ uri ∈ a.target, w.Running uri) :
    ∃ r, (getLoop actions req : Handler (World σ) _) w = .ok r := by
  induction actions generalizing req w with
  | nil => exact ⟨_, rfl⟩
  | cons a rest ih =>
      have hrest : ∀ a ∈ rest, GetAllowed a := fun a ha => hallowed a (by simp [ha])
      have hrunRest : ∀ w' : World σ, (∀ uri, w'.Running uri ↔ w.Running uri) →
          ∀ a ∈ rest, ∀ uri ∈ a.target, w'.Running uri :=
        fun w' hw' a ha uri huri => (hw' uri).mpr (hrun a (by simp [ha]) uri huri)
      cases a with
      | get a =>
          exact absurd (hallowed _ List.mem_cons_self)
            (by simp [GetAllowed, Action.isCopy, Action.isRemove])
      | put a =>
          exact absurd (hallowed _ List.mem_cons_self)
            (by simp [GetAllowed, Action.isCopy, Action.isRemove])
      | copyFrom a =>
          obtain ⟨r, hr⟩ := managerCopyFrom_total (hrun (.copyFrom a) (by simp) _ rfl)
            { key := a.key, dstUri := a.dstMgr.uri }
          have hexec : (executeCopyAction a : Handler (World σ) _) w = .ok ((), r.2) :=
            bind_of_ok hr
          obtain ⟨r', hr'⟩ := ih (req ++ [.copyFrom a]) hrest
            (hrunRest r.2 (executeCopyAction_ok hexec).2.running)
          exact ⟨r', (bind_of_ok hexec).trans hr'⟩
      | remove a =>
          obtain ⟨r, hr⟩ := managerCall_total (hrun (.remove a) (by simp) _ rfl)
            fun s : σ => StorageManager.remove s { key := a.key }
          have hexec : (executeRemoveAction a : Handler (World σ) _) w = .ok ((), r.2) :=
            bind_of_ok hr
          obtain ⟨r', hr'⟩ := ih (req ++ [.remove a]) hrest
            (hrunRest r.2 (executeRemoveAction_ok hexec).2.running)
          exact ⟨r', (bind_of_ok hexec).trans hr'⟩
      | notSet => simpa [getLoop] using ih req hrest (hrunRest w fun _ => Iff.rfl)

/-- The actions the loop of `Put` executes as they stand: a remove action falls
through into the case of put actions. -/
def PutAllowed (key : String) (a : Action) : Prop := a.isCopy ∨ a.isPutOf key ∨ a = .notSet

theorem putCase_ok {request : PutRequest} {a : PutAction} {w : World σ} {r : Unit × World σ}
    (h : (putCase request (.put a) : Handler (World σ) _) w = .ok r) :
    a.key = request.key ∧ Effect [.put a.mgr.uri a.key request.value] w r.2 := by
  obtain ⟨_, w₁, hcheck, hexec⟩ := bind_ok.mp h
  obtain ⟨hkey, heq⟩ := check_ok.mp hcheck
  cases heq
  have hkey : a.key = request.key := of_decide_eq_true hkey
  refine ⟨hkey, ?_⟩
  rw [hkey]
  exact (executePutAction_ok hexec).2

/-- The loop of `Put` over a rule without remove actions executes the actions
in order and collects them. -/
theorem putLoop_ok {request : PutRequest} {actions req : List Action} {w : World σ}
    {r : List Action × World σ} (hremove : ∀ a ∈ actions, ¬ a.isRemove)
    (h : (putLoop request actions req : Handler (World σ) _) w = .ok r) :
    r.1 = req ++ Action.reported actions ∧
      Effect (Action.ops request.value actions) w r.2 := by
  induction actions generalizing req w with
  | nil =>
      cases h
      exact ⟨by simp [Action.reported], Effect.refl w⟩
  | cons a rest ih =>
      have hrest : ∀ a ∈ rest, ¬ a.isRemove := fun a ha => hremove a (by simp [ha])
      cases a with
      | get a => cases h
      | remove a => exact absurd rfl (hremove (.remove a) (by simp))
      | copyFrom a =>
          obtain ⟨_, w₁, hexec, htail⟩ := bind_ok.mp h
          obtain ⟨hreq, heff⟩ := ih hrest htail
          exact ⟨by simp [hreq, Action.reported], (executeCopyAction_ok hexec).2.trans heff⟩
      | put a =>
          obtain ⟨_, w₁, hexec, htail⟩ := bind_ok.mp h
          obtain ⟨hreq, heff⟩ := ih hrest htail
          exact ⟨by simp [hreq, Action.reported], (putCase_ok hexec).2.trans heff⟩
      | notSet =>
          obtain ⟨hreq, heff⟩ := ih hrest (by simpa [putLoop] using h)
          exact ⟨by simp [hreq, Action.reported], heff⟩

omit [LawfulStorage σ] in
theorem putCase_total {request : PutRequest} {a : PutAction} {w : World σ}
    (hkey : a.key = request.key) (hrun : w.Running a.mgr.uri) :
    ∃ r, (putCase request (.put a) : Handler (World σ) _) w = .ok r := by
  obtain ⟨r, hr⟩ := managerCall_total hrun fun s : σ => StorageManager.put s request
  refine ⟨((), { r.2 with master := (r.2.master.storageChange {}).2 }), ?_⟩
  have hcheck : (check (decide ((Action.put a).putAction.key = request.key)) :
      Handler (World σ) _) w = .ok ((), w) := by
    simp [Action.putAction, hkey]
  exact (bind_of_ok hcheck).trans ((bind_of_ok hr).trans rfl)

/-- The loop of `Put` completes when every manager it calls is running. -/
theorem putLoop_total {request : PutRequest} {actions : List Action} (req : List Action)
    {w : World σ} (hallowed : ∀ a ∈ actions, PutAllowed request.key a)
    (hrun : ∀ a ∈ actions, ∀ uri ∈ a.target, w.Running uri) :
    ∃ r, (putLoop request actions req : Handler (World σ) _) w = .ok r := by
  induction actions generalizing req w with
  | nil => exact ⟨_, rfl⟩
  | cons a rest ih =>
      have hrest : ∀ a ∈ rest, PutAllowed request.key a := fun a ha => hallowed a (by simp [ha])
      have hrunRest : ∀ w' : World σ, (∀ uri, w'.Running uri ↔ w.Running uri) →
          ∀ a ∈ rest, ∀ uri ∈ a.target, w'.Running uri :=
        fun w' hw' a ha uri huri => (hw' uri).mpr (hrun a (by simp [ha]) uri huri)
      cases a with
      | get a =>
          exact absurd (hallowed _ List.mem_cons_self)
            (by simp [PutAllowed, Action.isCopy, Action.isPutOf])
      | remove a =>
          exact absurd (hallowed _ List.mem_cons_self)
            (by simp [PutAllowed, Action.isCopy, Action.isPutOf])
      | copyFrom a =>
          obtain ⟨r, hr⟩ := managerCopyFrom_total (hrun (.copyFrom a) (by simp) _ rfl)
            { key := a.key, dstUri := a.dstMgr.uri }
          have hexec : (executeCopyAction a : Handler (World σ) _) w = .ok ((), r.2) :=
            bind_of_ok hr
          obtain ⟨r', hr'⟩ := ih (req ++ [.copyFrom a]) hrest
            (hrunRest r.2 (executeCopyAction_ok hexec).2.running)
          exact ⟨r', (bind_of_ok hexec).trans hr'⟩
      | put a =>
          have hkey : a.key = request.key := by
            simpa [PutAllowed, Action.isCopy, Action.isPutOf] using hallowed (.put a) (by simp)
          obtain ⟨r, hr⟩ := putCase_total hkey (hrun (.put a) (by simp) _ rfl)
          obtain ⟨r', hr'⟩ := ih (req ++ [.put a]) hrest (hrunRest r.2 (putCase_ok hr).2.running)
          exact ⟨r', (bind_of_ok hr).trans hr'⟩
      | notSet => simpa [putLoop] using ih req hrest (hrunRest w fun _ => Iff.rfl)

/-! ## The handlers -/

/-- The rule a client finds for an operation on a key. -/
def FindsRule (d : RuleDb) (key : String) (op : OperationType) (r : Rule) : Prop :=
  d.ruleDb.lookup (RuleDb.getRuleKey key op) = some r

instance (d : RuleDb) (key : String) (op : OperationType) (r : Rule) :
    Decidable (FindsRule d key op r) :=
  inferInstanceAs (Decidable (_ = _))

omit [StorageInterface σ] [LawfulStorage σ] in
theorem lookup_bind {α : Type} {d : RuleDb} {key : String} {op : OperationType}
    {f : Rule → Handler (World σ) α} {w : World σ} {res : α × World σ} :
    (do check (d.hasMatchingRule key op)
        let r ← lift (d.getMatchingRule key op)
        f r : Handler (World σ) α) w = .ok res ↔
      ∃ r, FindsRule d key op r ∧ f r w = .ok res := by
  unfold RuleDb.hasMatchingRule RuleDb.getMatchingRule FindsRule
  cases h : d.ruleDb.lookup (RuleDb.getRuleKey key op) with
  | none =>
      simp only [Option.isSome_none, reduceCtorEq, false_and, exists_false, iff_false]
      intro hf
      obtain ⟨_, _, hcheck, _⟩ := bind_ok.mp hf
      exact absurd (check_ok.mp hcheck).1 (by simp)
  | some r =>
      simp only [Option.isSome_some, Option.some.injEq, exists_eq_left']
      rw [bind_of_ok (check_true w), bind_of_ok (lift_ok r w)]

/-- A `Get` that comes back executed a rule whose last action is a get of the
key: the operations of the other actions, then their report, then the get. -/
theorem get_ok {d : RuleDb} {request : GetRequest} {w : World σ}
    {r : (Status × GetReply) × World σ} (h : (get d request : Handler (World σ) _) w = .ok r) :
    ∃ rule actions last, FindsRule d request.key .get rule ∧
      rule.action = actions ++ [.get last] ∧ last.key = request.key ∧
      r.1 = (.ok, { value :=
        (run "" w.value (Action.ops "" actions) last.mgr.uri request.key).getD "" }) ∧
      Executed (Action.ops "" actions) (Action.reported actions) w r.2 := by
  obtain ⟨rule, hrule, hbody⟩ := lookup_bind.mp h
  obtain ⟨req, w₁, hloop, h₁⟩ := bind_ok.mp hbody
  obtain ⟨s, w₂, hreport, h₂⟩ := bind_ok.mp h₁
  obtain ⟨_, w₃, hcheck, h₃⟩ := bind_ok.mp h₂
  obtain ⟨_, hw₃⟩ := check_ok.mp hcheck
  cases hw₃
  cases hlast : rule.action.getLast? with
  | none => rw [hlast] at h₃; cases h₃
  | some a =>
      rw [hlast] at h₃
      cases a with
      | copyFrom a => cases h₃
      | remove a => cases h₃
      | put a => cases h₃
      | notSet => cases h₃
      | get last =>
          obtain ⟨_, w₄, hassert, h₄⟩ := bind_ok.mp h₃
          obtain ⟨hdec, hw₄⟩ := check_ok.mp hassert
          cases hw₄
          obtain ⟨reply, w₅, hexec, h₅⟩ := bind_ok.mp h₄
          cases h₅
          have hkey : last.key = request.key := of_decide_eq_true hdec
          obtain ⟨hreq, heff⟩ := getLoop_ok hloop
          obtain ⟨_, hdone⟩ := heff.report req hreport
          obtain ⟨hreply, hread⟩ := executeGetAction_ok hexec
          refine ⟨rule, rule.action.dropLast, last, hrule, ?_, hkey, ?_, ?_⟩
          · exact (List.dropLast_append_getLast? _ hlast).symm
          · change reply = _ at hreply
            rw [hreply, hdone.value, hkey]
          · have hreq : req = Action.reported rule.action.dropLast := hreq
            exact ⟨by rw [hread.value, hdone.value]; rfl,
              fun u => (hread.running u).trans (hdone.running u),
              by rw [hread.master, hdone.master, hreq]⟩

omit [LawfulStorage σ] in
theorem executeGetAction_running {a : GetAction} {w : World σ} {r : GetReply × World σ}
    (h : (executeGetAction a : Handler (World σ) _) w = .ok r) : w.Running a.mgr.uri := by
  obtain ⟨_, w', hcall, _⟩ := bind_ok.mp h
  change World.managerGet _ _ w = _ at hcall
  obtain ⟨s, hs, _⟩ := managerCall_ok.mp hcall
  exact (w.running_iff _).mpr ⟨s, hs⟩

/-- The managers that a completed `Get` calls are running. -/
theorem get_running {d : RuleDb} {request : GetRequest} {w : World σ} {rule : Rule}
    {r : (Status × GetReply) × World σ} (hrule : FindsRule d request.key .get rule)
    (h : (get d request : Handler (World σ) _) w = .ok r) :
    ∀ a ∈ rule.action, ∀ uri ∈ a.target, w.Running uri := by
  obtain ⟨rule', hrule', hbody⟩ := lookup_bind.mp h
  have hsame : rule' = rule := Option.some.inj (hrule'.symm.trans hrule)
  subst hsame
  obtain ⟨req, w₁, hloop, h₁⟩ := bind_ok.mp hbody
  obtain ⟨_, w₂, hreport, h₂⟩ := bind_ok.mp h₁
  obtain ⟨_, w₃, hcheck, h₃⟩ := bind_ok.mp h₂
  cases (check_ok.mp hcheck).2
  cases hlast : rule'.action.getLast? with
  | none => rw [hlast] at h₃; cases h₃
  | some b =>
      rw [hlast] at h₃
      cases b with
      | copyFrom b => cases h₃
      | remove b => cases h₃
      | put b => cases h₃
      | notSet => cases h₃
      | get last =>
          obtain ⟨_, w₄, hassert, h₄⟩ := bind_ok.mp h₃
          cases (check_ok.mp hassert).2
          obtain ⟨_, _, hexec, _⟩ := bind_ok.mp h₄
          obtain ⟨_, hdone⟩ := (getLoop_ok hloop).2.report req hreport
          intro a ha uri huri
          rw [← List.dropLast_append_getLast? _ hlast] at ha
          rcases List.mem_append.mp ha with hmem | hmem
          · exact getLoop_running hloop a hmem uri huri
          · obtain rfl := List.mem_singleton.mp hmem
            cases huri
            exact (hdone.running _).mp (executeGetAction_running hexec)

/-- A `Get` comes back when its rule executes copies and removals before the
final get and the managers that it calls are running. -/
theorem get_total {d : RuleDb} {request : GetRequest} {w : World σ} {rule : Rule}
    {actions : List Action} {last : GetAction} (hrule : FindsRule d request.key .get rule)
    (haction : rule.action = actions ++ [.get last]) (hkey : last.key = request.key)
    (hallowed : ∀ a ∈ actions, GetAllowed a)
    (hrun : ∀ a ∈ rule.action, ∀ uri ∈ a.target, w.Running uri) :
    ∃ r, (get d request : Handler (World σ) _) w = .ok r := by
  have hrun' : ∀ a ∈ actions, ∀ uri ∈ a.target, w.Running uri :=
    fun a ha => hrun a (by simp [haction, ha])
  obtain ⟨⟨req, w₁⟩, hloop⟩ := getLoop_total [] hallowed hrun'
  obtain ⟨_, hdone⟩ := (getLoop_ok hloop).2.report req rfl
  have hlast := (hdone.running last.mgr.uri).mpr (hrun (.get last) (by simp [haction]) _ rfl)
  obtain ⟨r, hr⟩ := managerCall_total hlast fun s : σ =>
    (((StorageManager.get s { key := last.key }).1, (StorageManager.get s { key := last.key }).2.1),
      (StorageManager.get s { key := last.key }).2.2)
  refine ⟨((.ok, r.1.2), r.2), lookup_bind.mpr ⟨rule, hrule, ?_⟩⟩
  have hdrop : rule.action.dropLast = actions := by simp [haction]
  have hget : rule.action.getLast? = some (.get last) := by simp [haction]
  rw [hdrop, hget, bind_of_ok hloop]
  refine (bind_of_ok rfl).trans ((bind_of_ok (check_true _)).trans ?_)
  simp only [hkey, decide_true]
  refine (bind_of_ok (check_true _)).trans ((bind_of_ok ?_).trans rfl)
  exact (bind_of_ok hr).trans rfl

/-- A `Put` that comes back executed the operations of its rule and reported
them. -/
theorem put_ok {d : RuleDb} {request : PutRequest} {w : World σ} {r : Status × World σ}
    {rule : Rule} (hrule : FindsRule d request.key .put rule)
    (hremove : ∀ a ∈ rule.action, ¬ a.isRemove)
    (h : (put d request : Handler (World σ) _) w = .ok r) :
    r.1 = .ok ∧
      Executed (Action.ops request.value rule.action) (Action.reported rule.action) w r.2 := by
  obtain ⟨rule', hrule', hbody⟩ := lookup_bind.mp h
  have hsame : rule' = rule := Option.some.inj (hrule'.symm.trans hrule)
  subst hsame
  obtain ⟨req, w₁, hloop, h₁⟩ := bind_ok.mp hbody
  obtain ⟨s, w₂, hreport, h₂⟩ := bind_ok.mp h₁
  obtain ⟨_, w₃, hcheck, h₃⟩ := bind_ok.mp h₂
  obtain ⟨_, hw₃⟩ := check_ok.mp hcheck
  cases hw₃
  cases h₃
  obtain ⟨hreq, heff⟩ := putLoop_ok hremove hloop
  obtain ⟨_, hdone⟩ := heff.report req hreport
  have hreq : req = Action.reported rule'.action := hreq
  exact ⟨rfl, hdone.value, hdone.running, by rw [hdone.master, hreq]⟩

/-- A `Put` comes back when its rule executes copies and puts of the key and
the managers that it calls are running. -/
theorem put_total {d : RuleDb} {request : PutRequest} {w : World σ} {rule : Rule}
    (hrule : FindsRule d request.key .put rule)
    (hallowed : ∀ a ∈ rule.action, PutAllowed request.key a)
    (hrun : ∀ a ∈ rule.action, ∀ uri ∈ a.target, w.Running uri) :
    ∃ r, (put d request : Handler (World σ) _) w = .ok r := by
  obtain ⟨⟨req, w₁⟩, hloop⟩ := putLoop_total [] hallowed hrun
  refine ⟨(.ok, { w₁ with master := (w₁.master.storageChange { storageChange := req }).2 }),
    lookup_bind.mpr ⟨rule, hrule, ?_⟩⟩
  rw [bind_of_ok hloop]
  exact (bind_of_ok rfl).trans ((bind_of_ok (check_true _)).trans rfl)

/-- What a `Get` does under a rule of copies and removals whose managers are
running. -/
theorem get_runs {d : RuleDb} {request : GetRequest} {w : World σ} {rule : Rule}
    {actions : List Action} {last : GetAction} (hrule : FindsRule d request.key .get rule)
    (haction : rule.action = actions ++ [.get last]) (hkey : last.key = request.key)
    (hmoves : ∀ a ∈ actions, a.isCopy ∨ a.isRemove)
    (hrun : ∀ a ∈ rule.action, ∀ uri ∈ a.target, w.Running uri) :
    ∃ w', (get d request : Handler (World σ) _) w = .ok ((.ok, { value :=
        (run "" w.value (Action.ops "" actions) last.mgr.uri request.key).getD "" }), w') ∧
      Executed (Action.ops "" actions) (Action.reported actions) w w' := by
  have hallowed : ∀ a ∈ actions, GetAllowed a :=
    fun a ha => (hmoves a ha).imp_right Or.inl
  obtain ⟨⟨reply, w'⟩, hget⟩ := get_total hrule haction hkey hallowed hrun
  obtain ⟨rule', actions', last', hrule', haction', _, hreply, hdone⟩ := get_ok hget
  have hsame : rule' = rule := Option.some.inj (hrule'.symm.trans hrule)
  subst hsame
  rw [haction] at haction'
  obtain ⟨rfl, hlast'⟩ := List.append_inj' haction' rfl
  cases hlast'
  cases hreply
  exact ⟨w', hget, hdone⟩

/-- What a `Put` does under a rule of copies and puts of the key whose managers
are running. -/
theorem put_runs {d : RuleDb} {request : PutRequest} {w : World σ} {rule : Rule}
    (hrule : FindsRule d request.key .put rule)
    (hputs : ∀ a ∈ rule.action, a.isCopy ∨ a.isPutOf request.key)
    (hrun : ∀ a ∈ rule.action, ∀ uri ∈ a.target, w.Running uri) :
    ∃ w', (put d request : Handler (World σ) _) w = .ok (.ok, w') ∧
      Executed (Action.ops request.value rule.action) (Action.reported rule.action) w w' := by
  have hallowed : ∀ a ∈ rule.action, PutAllowed request.key a :=
    fun a ha => (hputs a ha).imp_right Or.inl
  have hremove : ∀ a ∈ rule.action, ¬ a.isRemove := by
    intro a ha hr
    cases a with
    | remove a => simpa [Action.isCopy, Action.isPutOf] using hputs _ ha
    | _ => cases hr
  obtain ⟨⟨status, w'⟩, hput⟩ := put_total hrule hallowed hrun
  obtain ⟨hstatus, hdone⟩ := put_ok hrule hremove hput
  cases hstatus
  exact ⟨w', hput, hdone⟩

end StorageClient

end ProgrammableCaching
