import ProgrammableCaching.Library.Reports
import ProgrammableCaching.Threads
import ProgrammableCaching.ViewAgreement

/-! Clients that put and remove keys at the same time. A client changes a manager
first and reports to the master in a later call, so two reports can arrive in
another order than the changes were made in. -/

namespace ProgrammableCaching

open UnorderedMap Replicas Handler RpcInterfaces Pools Runs LastWriter

/-! ## Changes and reports of one entry -/

/-- What a report of the action says about the key at the manager: `true` for a
put, `false` for a removal. -/
def Action.change (name key : String) : Action → Option Bool
  | .copyFrom a =>
      if a.dstMgr.name = name ∧ a.key = key then some false
      else if a.srcMgr.name = name ∧ a.key = key then some true else none
  | .remove a => if a.mgr.name = name ∧ a.key = key then some false else none
  | .put a => if a.mgr.name = name ∧ a.key = key then some true else none
  | .get _ | .notSet => none

namespace Rpc

variable {β : Type}

/-- What the call makes of whether the manager at `uri` holds the key. -/
def change (uri key : String) : Rpc β → Option Bool
  | managerPut u request => if u = uri ∧ request.key = key then some true else none
  | managerRemove u request => if u = uri ∧ request.key = key then some false else none
  | copyFromStore u request _ => if u = uri ∧ request.key = key then some true else none
  | managerGet _ _ | copyFromFetch _ _ | storageChange _ => none

/-- What the call makes of whether the master lists the key at the manager. -/
def report (name key : String) : Rpc β → Option Bool
  | storageChange request => (request.storageChange.filterMap (Action.change name key)).getLast?
  | _ => none

theorem change_or_report (uri name key : String) (c : Rpc β) :
    c.change uri key = none ∨ c.report name key = none := by
  cases c with
  | storageChange request => exact .inl rfl
  | _ => exact .inr rfl

end Rpc

theorem StorageMaster.lists_changeView_change (v : StorageFileView) (a : Action) {name key : String}
    {b : Bool} (h : v.Lists name key ↔ b = true) :
    (StorageMaster.changeView v a).Lists name key ↔ (a.change name key).getD b = true := by
  have hswap : ∀ mgr k : String, (name = mgr ∧ key = k) ↔ (mgr = name ∧ k = key) :=
    fun _ _ => and_congr eq_comm eq_comm
  cases a with
  | get a => exact h
  | notSet => exact h
  | put a =>
      simp only [StorageMaster.changeView, StorageFileView.lists_addFileToManager, Action.change,
        hswap, h]
      by_cases hc : a.mgr.name = name ∧ a.key = key <;> simp [hc]
  | remove a =>
      simp only [StorageMaster.changeView, StorageFileView.lists_removeFileFromManager,
        Action.change, hswap, h]
      by_cases hc : a.mgr.name = name ∧ a.key = key <;> simp [hc]
  | copyFrom a =>
      simp only [StorageMaster.changeView, StorageFileView.lists_addFileToManager,
        StorageFileView.lists_removeFileFromManager, Action.change, hswap, h]
      by_cases hd : a.dstMgr.name = name ∧ a.key = key
      · simp [hd]
      · by_cases hs : a.srcMgr.name = name ∧ a.key = key
        · have hne : ¬ a.dstMgr.name = name := fun heq => hd ⟨heq, hs.2⟩
          simp [hs, hne]
        · simp [hd, hs]

theorem StorageMaster.lists_foldl_change (actions : List Action) (v : StorageFileView)
    {name key : String} {b : Bool} (h : v.Lists name key ↔ b = true) :
    (actions.foldl StorageMaster.changeView v).Lists name key ↔
      ((actions.filterMap (Action.change name key)).getLast?).getD b = true := by
  induction actions generalizing v b with
  | nil => exact h
  | cons a actions ih =>
      rw [List.foldl_cons, ih _ (StorageMaster.lists_changeView_change v a h)]
      cases hc : a.change name key with
      | none => simp [hc]
      | some c =>
          cases hl : (actions.filterMap (Action.change name key)).getLast? <;>
            simp [hc, hl, List.getLast?_cons]

namespace World

variable {σ : Type} [StorageInterface σ] [LawfulStorage σ] {β : Type} {c : Rpc β}
  {w : World σ} {r : β × World σ}

theorem Effect.isSome {ops : List (Op String String String)} {w w' : World σ} (h : Effect ops w w')
    (uri key : String) :
    (w'.value uri key).isSome = (run "" w.value ops uri key).isSome := by
  rw [h.value]

/-- A call changes what a manager holds as `change` says. -/
theorem value_handle (h : Rpc.handle c w = .ok r) (uri key : String) :
    (r.2.value uri key).isSome = (c.change uri key).getD (w.value uri key).isSome := by
  have hswap : ∀ u k : String, (uri = u ∧ key = k) ↔ (u = uri ∧ k = key) :=
    fun _ _ => and_congr eq_comm eq_comm
  cases c with
  | managerGet u request =>
      rw [(managerGet_ok h).2.isSome]
      rfl
  | copyFromFetch u request =>
      rw [(copyFromFetch_ok h).2.2.isSome]
      rfl
  | storageChange request =>
      cases h
      rfl
  | managerPut u request =>
      rw [(managerPut_ok h).2.isSome]
      simp only [run_cons, run_nil, Replicas.apply, Replicas.set, Rpc.change, hswap]
      by_cases hc : u = uri ∧ request.key = key <;> simp [hc]
  | managerRemove u request =>
      rw [(managerRemove_ok h).2.isSome]
      simp only [run_cons, run_nil, Replicas.apply, Replicas.set, Rpc.change, hswap]
      by_cases hc : u = uri ∧ request.key = key <;> simp [hc]
  | copyFromStore u request reply =>
      rw [(copyFromStore_ok h).2.isSome]
      simp only [run_cons, run_nil, Replicas.apply, Replicas.set, Rpc.change, hswap]
      by_cases hc : u = uri ∧ request.key = key <;> simp [hc]

/-- A call changes the view of the master as `report` says. -/
theorem lists_handle (h : Rpc.handle c w = .ok r) {name key : String} {b : Bool}
    (hb : w.master.fileView.Lists name key ↔ b = true) :
    r.2.master.fileView.Lists name key ↔ (c.report name key).getD b = true := by
  cases c with
  | managerGet u request =>
      rw [(managerGet_ok h).2.master]
      exact hb
  | copyFromFetch u request =>
      rw [(copyFromFetch_ok h).2.2.master]
      exact hb
  | managerPut u request =>
      rw [(managerPut_ok h).2.master]
      exact hb
  | managerRemove u request =>
      rw [(managerRemove_ok h).2.master]
      exact hb
  | copyFromStore u request reply =>
      rw [(copyFromStore_ok h).2.master]
      exact hb
  | storageChange request =>
      cases h
      exact StorageMaster.lists_foldl_change request.storageChange _ hb

end World

namespace StorageClient

/-! ## What a running handler has not reported -/

/-- A put action (`true`) or a remove action (`false`) at one of the managers `M`,
with the address that `addr` gives it. -/
inductive Plain (addr : String → String) (M : Set String) : Bool → Action → Prop
  | put {a : PutAction} : a.mgr.name ∈ M → a.mgr.uri = addr a.mgr.name → Plain addr M true (.put a)
  | remove {a : RemoveAction} :
      a.mgr.name ∈ M → a.mgr.uri = addr a.mgr.name → Plain addr M false (.remove a)

/-- The program makes no calls but gets. -/
inductive Quiet : ClientThread Unit → Prop
  | done : Quiet (.done ())
  | fail {e : Failure} : Quiet (.fail e)
  | get {uri : String} {request : GetRequest} {k : Status × GetReply → ClientThread Unit} :
      (∀ r, Quiet (k r)) → Quiet (.call (.managerGet uri request) k)

/-- What a handler does after its loop: it reports, and then at most gets. -/
def Reporting (finish : List Action → ClientThread Unit) : Prop :=
  ∃ k : Status → ClientThread Unit, (∀ s, Quiet (k s)) ∧
    ∀ req, finish req = .call (.storageChange { storageChange := req }) k

/-- The parts of a handler that puts (`true`) or removes (`false`), with the
actions it has executed and not yet reported. -/
inductive Phase (addr : String → String) (M : Set String) :
    Bool → List Action → ClientThread Unit → Prop
  | putting {request : PutRequest} {rest req : List Action}
      {finish : List Action → ClientThread Unit} :
      Reporting finish → (∀ a ∈ rest, Plain addr M true a) → (∀ a ∈ req, Plain addr M true a) →
        Phase addr M true req (putLoop request rest req >>= finish)
  | noting {request : PutRequest} {rest req : List Action}
      {finish : List Action → ClientThread Unit} :
      Reporting finish → (∀ a ∈ rest, Plain addr M true a) → (∀ a ∈ req, Plain addr M true a) →
        Phase addr M true req
          (.call (.storageChange {}) fun _ => putLoop request rest req >>= finish)
  | removing {rest req : List Action} {finish : List Action → ClientThread Unit} :
      Reporting finish → (∀ a ∈ rest, Plain addr M false a) → (∀ a ∈ req, Plain addr M false a) →
        Phase addr M false req (getLoop rest req >>= finish)
  | quiet {b : Bool} {p : ClientThread Unit} : Quiet p → Phase addr M b [] p

/-- Some of the actions is about the key at the manager. -/
def Owes (name key : String) (req : List Action) : Prop := ∃ a ∈ req, a.change name key ≠ none

/-- What a call does for one entry, by a handler of kind `b`: nothing, a change
that the handler owes a report from then on, or the report of all it owes. -/
inductive Moved (name key : String) (b : Bool) (req req' : List Action) :
    Option Bool → Option Bool → Prop
  | kept : (Owes name key req' ↔ Owes name key req) → Moved name key b req req' none none
  | changed : Owes name key req' → Moved name key b req req' (some b) none
  | reported : Owes name key req → ¬ Owes name key req' → Moved name key b req req' none (some b)

variable {addr : String → String} {M : Set String} {b c : Bool} {a : Action} {name key : String}
  {req : List Action}

theorem Plain.change_eq (h : Plain addr M b a) (hc : a.change name key = some c) : c = b := by
  cases h with
  | put => simp only [Action.change] at hc; split at hc <;> simp_all
  | remove => simp only [Action.change] at hc; split at hc <;> simp_all

@[simp] theorem not_owes_nil : ¬ Owes name key [] := by simp [Owes]

theorem owes_append :
    Owes name key (req ++ [a]) ↔ Owes name key req ∨ a.change name key ≠ none := by
  simp [Owes, or_and_right, exists_or]

/-- Executing one more action. -/
theorem moved_execute (h : Plain addr M b a) :
    Moved name key b req (req ++ [a]) (a.change name key) none := by
  cases hc : a.change name key with
  | none => exact .kept (by simp [owes_append, hc])
  | some c =>
      rw [h.change_eq hc]
      exact .changed (owes_append.mpr (.inr (by simp [hc])))

/-- Reporting everything executed. -/
theorem moved_report (h : ∀ a ∈ req, Plain addr M b a) :
    Moved name key b req [] none
      ((Rpc.storageChange { storageChange := req }).report name key) := by
  cases hl : (Rpc.storageChange { storageChange := req }).report name key with
  | none =>
      have hnil : req.filterMap (Action.change name key) = [] := List.getLast?_eq_none_iff.mp hl
      refine .kept (iff_of_false not_owes_nil ?_)
      rintro ⟨a, ha, hc⟩
      exact hc (List.filterMap_eq_nil_iff.mp hnil a ha)
  | some c =>
      have hmem : c ∈ req.filterMap (Action.change name key) := List.mem_of_getLast? hl
      obtain ⟨a, ha, hc⟩ := List.mem_filterMap.mp hmem
      rw [(h a ha).change_eq hc]
      exact .reported ⟨a, ha, by simp [hc]⟩ not_owes_nil

section Step

variable {σ : Type} [StorageInterface σ] {w w' : World σ} {l : Σ β, Rpc β}
  {p p' : ClientThread Unit}

theorem Quiet.step (h : Quiet p) (hstep : ClientThread.Step w p l w' p') :
    Quiet p' ∧ ∀ uri name key, l.2.change uri key = none ∧ l.2.report name key = none := by
  cases h with
  | done => exact absurd hstep Prog.not_step_done
  | fail => exact absurd hstep Prog.not_step_fail
  | get hk =>
      obtain ⟨rfl, r, _, rfl⟩ := Prog.step_call.mp hstep
      exact ⟨hk r, fun _ _ _ => ⟨rfl, rfl⟩⟩

theorem Reporting.step {finish : List Action → ClientThread Unit} (hf : Reporting finish)
    (hstep : ClientThread.Step w (finish req) l w' p') :
    Quiet p' ∧ l = ⟨Status, .storageChange { storageChange := req }⟩ := by
  obtain ⟨k, hk, hfinish⟩ := hf
  rw [hfinish] at hstep
  obtain ⟨rfl, s, _, rfl⟩ := Prog.step_call.mp hstep
  exact ⟨hk s, rfl⟩

/-- A put or a removal at one of the managers changes the entry that its action
is about. -/
theorem change_of_addr (hdistinct : Set.InjOn addr M) {mgr : Manager} (hm : mgr.name ∈ M)
    (hresolved : mgr.uri = addr mgr.name) (hname : name ∈ M) :
    mgr.uri = addr name ↔ mgr.name = name := by
  rw [hresolved, hdistinct.eq_iff hm hname]

theorem plain_append (hreq : ∀ a ∈ req, Plain addr M b a) (ha : Plain addr M b a) :
    ∀ a' ∈ req ++ [a], Plain addr M b a' := by
  intro a' ha'
  rcases List.mem_append.mp ha' with hold | hnew
  · exact hreq a' hold
  · rw [List.mem_singleton.mp hnew]
    exact ha

theorem putLoop_put {request : PutRequest} {a : PutAction} {rest : List Action}
    {finish : List Action → ClientThread Unit} (hkey : a.key = request.key) :
    (putLoop request (.put a :: rest) req >>= finish) =
      .call (.managerPut a.mgr.uri request) fun _ => .call (.storageChange {}) fun _ =>
        putLoop request rest (req ++ [.put a]) >>= finish := by
  simp only [putLoop, putCase, Action.putAction, hkey, decide_true, check, if_true]
  rfl

theorem putLoop_put_of_ne {request : PutRequest} {a : PutAction} {rest : List Action}
    {finish : List Action → ClientThread Unit} (hkey : a.key ≠ request.key) :
    (putLoop request (.put a :: rest) req >>= finish) = .fail .assertion := by
  simp only [putLoop, putCase, Action.putAction, hkey, decide_false, check]
  rfl

theorem getLoop_remove {a : RemoveAction} {rest : List Action}
    {finish : List Action → ClientThread Unit} :
    (getLoop (.remove a :: rest) req >>= finish) =
      .call (.managerRemove a.mgr.uri { key := a.key }) fun _ =>
        getLoop rest (req ++ [.remove a]) >>= finish := rfl

/-- What one call of a handler does: what it leaves unreported, and what that
says of each entry. -/
def Advances (addr : String → String) (M : Set String) (b : Bool) (req : List Action)
    (l : Σ β, Rpc β) (p' : ClientThread Unit) : Prop :=
  ∃ req', Phase addr M b req' p' ∧ ∀ name ∈ M, ∀ key,
    Moved name key b req req' (l.2.change (addr name) key) (l.2.report name key)

theorem Reporting.advances {finish : List Action → ClientThread Unit} (hf : Reporting finish)
    (hreq : ∀ a ∈ req, Plain addr M b a) (hstep : ClientThread.Step w (finish req) l w' p') :
    Advances addr M b req l p' := by
  obtain ⟨hq, rfl⟩ := hf.step hstep
  exact ⟨[], .quiet hq, fun name _ key => moved_report hreq⟩

theorem putLoop_advances (hdistinct : Set.InjOn addr M) {request : PutRequest} {rest : List Action}
    {finish : List Action → ClientThread Unit} (hf : Reporting finish)
    (hrest : ∀ a ∈ rest, Plain addr M true a) (hreq : ∀ a ∈ req, Plain addr M true a)
    (hstep : ClientThread.Step w (putLoop request rest req >>= finish) l w' p') :
    Advances addr M true req l p' := by
  cases rest with
  | nil => exact hf.advances hreq hstep
  | cons a rest =>
      have hrest' : ∀ a ∈ rest, Plain addr M true a := fun a ha => hrest a (by simp [ha])
      cases hrest a List.mem_cons_self with
      | @put a hm hresolved =>
      by_cases hkey : a.key = request.key
      · rw [putLoop_put hkey] at hstep
        obtain ⟨rfl, _, _, rfl⟩ := Prog.step_call.mp hstep
        have ha : Plain addr M true (.put a) := .put hm hresolved
        refine ⟨req ++ [.put a], .noting hf hrest' (plain_append hreq ha), ?_⟩
        intro name hname key
        have hchange : (Rpc.managerPut a.mgr.uri request).change (addr name) key =
            (Action.put a).change name key := by
          simp only [Rpc.change, Action.change, hkey,
            change_of_addr hdistinct hm hresolved hname]
        show Moved name key true req _ (Rpc.change _ _ _) none
        rw [hchange]
        exact moved_execute ha
      · rw [putLoop_put_of_ne hkey] at hstep
        exact absurd hstep Prog.not_step_fail

theorem getLoop_advances (hdistinct : Set.InjOn addr M) {rest : List Action}
    {finish : List Action → ClientThread Unit} (hf : Reporting finish)
    (hrest : ∀ a ∈ rest, Plain addr M false a) (hreq : ∀ a ∈ req, Plain addr M false a)
    (hstep : ClientThread.Step w (getLoop rest req >>= finish) l w' p') :
    Advances addr M false req l p' := by
  cases rest with
  | nil => exact hf.advances hreq hstep
  | cons a rest =>
      have hrest' : ∀ a ∈ rest, Plain addr M false a := fun a ha => hrest a (by simp [ha])
      cases hrest a List.mem_cons_self with
      | @remove a hm hresolved =>
      rw [getLoop_remove] at hstep
      obtain ⟨rfl, _, _, rfl⟩ := Prog.step_call.mp hstep
      have ha : Plain addr M false (.remove a) := .remove hm hresolved
      refine ⟨req ++ [.remove a], .removing hf hrest' (plain_append hreq ha), ?_⟩
      intro name hname key
      have hchange : (Rpc.managerRemove a.mgr.uri { key := a.key }).change (addr name) key =
          (Action.remove a).change name key := by
        simp only [Rpc.change, Action.change, change_of_addr hdistinct hm hresolved hname]
      show Moved name key false req _ (Rpc.change _ _ _) none
      rw [hchange]
      exact moved_execute ha

theorem Phase.step (hdistinct : Set.InjOn addr M) (h : Phase addr M b req p)
    (hstep : ClientThread.Step w p l w' p') : Advances addr M b req l p' := by
  cases h with
  | quiet hq =>
      obtain ⟨hq', hnone⟩ := hq.step hstep
      refine ⟨[], .quiet hq', fun name _ key => ?_⟩
      obtain ⟨hc, hr⟩ := hnone (addr name) name key
      rw [hc, hr]
      exact .kept Iff.rfl
  | noting hf hrest hreq =>
      obtain ⟨rfl, _, _, rfl⟩ := Prog.step_call.mp hstep
      exact ⟨req, .putting hf hrest hreq, fun name _ key => .kept Iff.rfl⟩
  | putting hf hrest hreq => exact putLoop_advances hdistinct hf hrest hreq hstep
  | removing hf hrest hreq => exact getLoop_advances hdistinct hf hrest hreq hstep

end Step

/-- A handler that has come to its end owes no report. -/
theorem Phase.of_done (h : Phase addr M b req (.done ())) : req = [] := by
  generalize hp : (.done () : ClientThread Unit) = p at h
  cases h with
  | quiet => rfl
  | noting => cases hp
  | @putting request rest _ finish hf hrest =>
      obtain ⟨k, _, hfinish⟩ := hf
      cases rest with
      | nil =>
          change .done () = finish req at hp
          rw [hfinish] at hp
          cases hp
      | cons a rest =>
          cases hrest a List.mem_cons_self with
          | @put a =>
          by_cases hkey : a.key = request.key
          · rw [putLoop_put hkey] at hp
            cases hp
          · rw [putLoop_put_of_ne hkey] at hp
            cases hp
  | @removing rest _ finish hf hrest =>
      obtain ⟨k, _, hfinish⟩ := hf
      cases rest with
      | nil =>
          change .done () = finish req at hp
          rw [hfinish] at hp
          cases hp
      | cons a rest =>
          cases hrest a List.mem_cons_self with
          | remove => cases hp

end StorageClient

/-! ## Handlers of clients -/

/-- A request to the client that listens at a uri. -/
inductive Call
  | get (client : String) (request : GetRequest)
  | put (client : String) (request : PutRequest)

namespace System

open StorageClient

section Handlers

variable {σ : Type}

/-- What runs at the client when the request comes in. -/
def handler (s : System σ) : Call → ClientThread Unit
  | .get client request =>
      match s.clients.lookup client with
      | some d => do
          let _ ← StorageClient.get d request
          return ()
      | none => return ()
  | .put client request =>
      match s.clients.lookup client with
      | some d => do
          let _ ← StorageClient.put d request
          return ()
      | none => return ()

/-- PUT rules put, and GET rules remove before they get. -/
structure PutsAndRemoves (s : System σ) : Prop where
  put : ∀ uri d, s.clients.lookup uri = some d → ∀ key r, FindsRule d key .put r →
    ∀ a ∈ r.action, a.isPut
  get : ∀ uri d, s.clients.lookup uri = some d → ∀ key r, FindsRule d key .get r →
    ∃ actions last, r.action = actions ++ [.get last] ∧ ∀ a ∈ actions, a.isRemove

/-- A `Get` or a `Put` without a rule fails its first assertion. -/
theorem get_of_none {d : RuleDb} {request : GetRequest}
    (h : d.ruleDb.lookup (RuleDb.getRuleKey request.key .get) = none) :
    (StorageClient.get d request : ClientThread _) = .fail .assertion := by
  simp only [StorageClient.get, RuleDb.hasMatchingRule, h, Option.isSome_none, check]
  rfl

theorem put_of_none {d : RuleDb} {request : PutRequest}
    (h : d.ruleDb.lookup (RuleDb.getRuleKey request.key .put) = none) :
    (StorageClient.put d request : ClientThread _) = .fail .assertion := by
  simp only [StorageClient.put, RuleDb.hasMatchingRule, h, Option.isSome_none, check]
  rfl

/-- The loop of a `Get` and what follows it. -/
theorem get_of_found {d : RuleDb} {request : GetRequest} {r : Rule} {actions : List Action}
    {last : GetAction} (hrule : FindsRule d request.key .get r)
    (haction : r.action = actions ++ [.get last]) :
    ∃ finish, Reporting finish ∧
      ((StorageClient.get d request : ClientThread _) >>= fun _ => pure ()) =
        getLoop actions [] >>= finish := by
  have hfound : d.ruleDb.lookup (RuleDb.getRuleKey request.key .get) = some r := hrule
  have hdrop : r.action.dropLast = actions := by simp [haction]
  have hget : r.action.getLast? = some (.get last) := by simp [haction]
  simp only [StorageClient.get, RuleDb.hasMatchingRule, RuleDb.getMatchingRule, hfound,
    Option.isSome_some, check, lift, if_true, pure_bind, hdrop, hget, bind_assoc]
  refine ⟨_, ⟨_, fun s => ?_, fun req => rfl⟩, rfl⟩
  cases s with
  | unavailable => exact .fail
  | ok =>
      by_cases hkey : last.key = request.key
      · simp only [Status.isOk, hkey, decide_true, if_true]
        exact .get fun _ => .done
      · simp only [Status.isOk, hkey]
        exact .fail

/-- The loop of a `Put` and what follows it. -/
theorem put_of_found {d : RuleDb} {request : PutRequest} {r : Rule}
    (hrule : FindsRule d request.key .put r) :
    ∃ finish, Reporting finish ∧
      ((StorageClient.put d request : ClientThread _) >>= fun _ => pure ()) =
        putLoop request r.action [] >>= finish := by
  have hfound : d.ruleDb.lookup (RuleDb.getRuleKey request.key .put) = some r := hrule
  simp only [StorageClient.put, RuleDb.hasMatchingRule, RuleDb.getMatchingRule, hfound,
    Option.isSome_some, check, lift, if_true, pure_bind, bind_assoc]
  refine ⟨_, ⟨_, fun s => ?_, fun req => rfl⟩, rfl⟩
  cases s with
  | unavailable => exact .fail
  | ok => exact .done

theorem phase_get {s : System σ} (hw : Wired s) (hrules : PutsAndRemoves s) {client : String}
    {d : RuleDb} (hd : s.clients.lookup client = some d) (request : GetRequest) :
    Phase s.addressOf {name | s.IsManager name} false []
      ((StorageClient.get d request : ClientThread _) >>= fun _ => pure ()) := by
  cases hr : d.ruleDb.lookup (RuleDb.getRuleKey request.key .get) with
  | none =>
      rw [get_of_none hr]
      exact .quiet .fail
  | some r =>
      obtain ⟨actions, last, haction, hremove⟩ := hrules.get client d hd _ r hr
      obtain ⟨finish, hf, heq⟩ := get_of_found hr haction
      rw [heq]
      refine .removing hf (fun a ha => ?_) (by simp)
      obtain ⟨hnames, hresolved⟩ := hw.rules client d hd _ r hr a (by simp [haction, ha])
      cases a with
      | remove a =>
          exact .remove (hnames a.mgr (by simp [Action.managers]))
            (hresolved a.mgr (by simp [Action.managers]))
      | _ => exact absurd (hremove _ ha) (by simp [Action.isRemove])

theorem phase_put {s : System σ} (hw : Wired s) (hrules : PutsAndRemoves s) {client : String}
    {d : RuleDb} (hd : s.clients.lookup client = some d) (request : PutRequest) :
    Phase s.addressOf {name | s.IsManager name} true []
      ((StorageClient.put d request : ClientThread _) >>= fun _ => pure ()) := by
  cases hr : d.ruleDb.lookup (RuleDb.getRuleKey request.key .put) with
  | none =>
      rw [put_of_none hr]
      exact .quiet .fail
  | some r =>
      obtain ⟨finish, hf, heq⟩ := put_of_found hr
      rw [heq]
      refine .putting hf (fun a ha => ?_) (by simp)
      obtain ⟨hnames, hresolved⟩ := hw.rules client d hd _ r hr a ha
      cases a with
      | put a =>
          exact .put (hnames a.mgr (by simp [Action.managers]))
            (hresolved a.mgr (by simp [Action.managers]))
      | _ => exact absurd (hrules.put client d hd _ r hr _ ha) (by simp [Action.isPut])

/-- A client starts a handler that owes no report. -/
theorem phase_handler {s : System σ} (hw : Wired s) (hrules : PutsAndRemoves s) (call : Call) :
    ∃ b, Phase s.addressOf {name | s.IsManager name} b [] (s.handler call) := by
  cases call with
  | get client request =>
      cases hd : s.clients.lookup client with
      | none => exact ⟨false, by simp only [handler, hd]; exact .quiet .done⟩
      | some d => exact ⟨false, by simp only [handler, hd]; exact phase_get hw hrules hd request⟩
  | put client request =>
      cases hd : s.clients.lookup client with
      | none => exact ⟨true, by simp only [handler, hd]; exact .quiet .done⟩
      | some d => exact ⟨true, by simp only [handler, hd]; exact phase_put hw hrules hd request⟩

end Handlers

/-! ## Runs -/

abbrev ClientEvent := Pools.Event (ClientThread Unit) (Σ β, Rpc β)

/-- Which handler changes whether the manager at `uri` holds the key, and to
what. -/
def storeChange (uri key : String) : ClientEvent → Option (ℕ × Bool)
  | .step i l => (l.2.change uri key).map fun b => (i, b)
  | .spawn _ => none

/-- Which handler reports about the key at the manager, and what. -/
def viewReport (name key : String) : ClientEvent → Option (ℕ × Bool)
  | .step i l => (l.2.report name key).map fun b => (i, b)
  | .spawn _ => none

variable {σ : Type} [StorageInterface σ]

/-- Handlers start at any time, and one handler at a time makes its next call. -/
def ConcurrentStep (s : System σ) :
    Pool (World σ) (ClientThread Unit) → ClientEvent → Pool (World σ) (ClientThread Unit) → Prop :=
  PoolStep (fun p => ∃ call, p = s.handler call) ClientThread.Step

/-- The changes of one entry that handlers have made and not yet reported. -/
abbrev unreportedChanges (s : System σ) (name key : String) (es : List ClientEvent) :
    List (ℕ × Bool) :=
  Reports.unreported (storeChange (s.addressOf name) key) (viewReport name key) es

/-- A handler owes its reports exactly for its unreported changes. -/
structure Tracks (s : System σ) (name key : String) (es : List ClientEvent)
    (ts : List (ClientThread Unit)) : Prop where
  owes : ∀ (i : ℕ) p, ts[i]? = some p → ∃ b req,
    Phase s.addressOf {name | s.IsManager name} b req p ∧
      ∀ c, (i, c) ∈ s.unreportedChanges name key es ↔ c = b ∧ Owes name key req
  bounded : ∀ x ∈ s.unreportedChanges name key es, x.1 < ts.length

variable {s : System σ} {name key : String} {es : List ClientEvent} {e : ClientEvent}
  {P P' : Pool (World σ) (ClientThread Unit)}

omit [StorageInterface σ] in
theorem Tracks.spawn (hw : Wired s) (hrules : PutsAndRemoves s) {ts : List (ClientThread Unit)}
    (h : Tracks s name key es ts) (call : Call) :
    Tracks s name key (es ++ [.spawn (s.handler call)]) (ts ++ [s.handler call]) := by
  have hsame : s.unreportedChanges name key (es ++ [.spawn (s.handler call)]) =
      s.unreportedChanges name key es := Reports.unreported_other es rfl rfl
  refine ⟨fun j p hj => ?_, fun x hx => ?_⟩
  · rw [hsame]
    rcases getElem?_append_cases hj with ⟨rfl, rfl⟩ | hold
    · obtain ⟨b, hb⟩ := phase_handler hw hrules call
      refine ⟨b, [], hb, fun c => iff_of_false (fun hc => ?_) fun hc => not_owes_nil hc.2⟩
      exact absurd (h.bounded _ hc) (lt_irrefl _)
    · exact h.owes j p hold
  · rw [hsame] at hx
    have hlt := h.bounded x hx
    rw [List.length_append]
    omega

omit [StorageInterface σ] in
/-- What one call of handler `i` does to the open changes of the entry. -/
theorem mem_unreportedChanges_step {i : ℕ} {l : Σ β, Rpc β} {b : Bool} {req req' : List Action}
    (howes : ∀ c, (i, c) ∈ s.unreportedChanges name key es ↔ c = b ∧ Owes name key req)
    (hmoved : Moved name key b req req' (l.2.change (s.addressOf name) key) (l.2.report name key))
    (j : ℕ) (c : Bool) :
    (j, c) ∈ s.unreportedChanges name key (es ++ [.step i l]) ↔
      if j = i then c = b ∧ Owes name key req' else (j, c) ∈ s.unreportedChanges name key es := by
  have hchange : storeChange (s.addressOf name) key (.step i l) =
      (l.2.change (s.addressOf name) key).map fun c => (i, c) := rfl
  have hreport : viewReport name key (.step i l) = (l.2.report name key).map fun c => (i, c) := rfl
  rw [unreportedChanges, Reports.mem_unreported_snoc, hchange, hreport]
  generalize l.2.change (s.addressOf name) key = oc at hmoved
  generalize l.2.report name key = or at hmoved
  by_cases hji : j = i
  · subst hji
    rw [if_pos rfl]
    have hj := howes c
    cases hmoved with
    | kept hkeep => simp [hj, hkeep]
    | changed hdue =>
        simp only [Option.map_some, Option.some.injEq, Prod.mk.injEq, true_and, hj, hdue, and_true,
          reduceCtorEq, false_implies]
        exact ⟨fun hc => hc.elim Eq.symm And.left, fun hc => .inl hc.symm⟩
    | reported hdue hnone =>
        simp only [Option.map_none, Option.map_some, reduceCtorEq, false_or, Option.some.injEq,
          ne_eq, Prod.mk.injEq, true_and, hj, hnone, and_false, iff_false]
        rintro ⟨⟨rfl, _⟩, hne⟩
        exact hne trivial rfl
  · rw [if_neg hji]
    cases hmoved with
    | kept hkeep => simp
    | changed hdue => simp [Ne.symm hji]
    | reported hdue hnone => simp [Ne.symm hji]

theorem Tracks.step (hw : Wired s) {ts : List (ClientThread Unit)} (hname : s.IsManager name)
    (h : Tracks s name key es ts) {i : ℕ} {p p' : ClientThread Unit} {w w' : World σ}
    {l : Σ β, Rpc β} (hi : ts[i]? = some p) (hstep : ClientThread.Step w p l w' p') :
    Tracks s name key (es ++ [.step i l]) (ts.set i p') ∧
      Reports.Justified (storeChange (s.addressOf name) key) (viewReport name key) es
        (.step i l) := by
  obtain ⟨b, req, hphase, howes⟩ := h.owes i p hi
  obtain ⟨req', hphase', hmoved⟩ := hphase.step hw.distinct hstep
  have hmem := mem_unreportedChanges_step howes (hmoved name hname key)
  refine ⟨⟨fun j q hj => ?_, fun x hx => ?_⟩, fun x hx => ?_⟩
  · rcases getElem?_set_cases hi hj with ⟨rfl, rfl⟩ | ⟨hji, hold⟩
    · exact ⟨b, req', hphase', fun c => (hmem j c).trans (by rw [if_pos rfl])⟩
    · obtain ⟨b', req'', hphase'', howes'⟩ := h.owes j q hold
      exact ⟨b', req'', hphase'', fun c => ((hmem j c).trans (by rw [if_neg hji])).trans (howes' c)⟩
  · rw [List.length_set]
    have hx' := (hmem x.1 x.2).mp hx
    split at hx'
    · rename_i heq
      rw [heq]
      exact (List.getElem?_eq_some_iff.mp hi).1
    · exact h.bounded x hx'
  · have hreport : (l.2.report name key).map (fun c => (i, c)) = some x := hx
    obtain ⟨c, hc, rfl⟩ := Option.map_eq_some_iff.mp hreport
    have hdue := hmoved name hname key
    rw [hc] at hdue
    generalize l.2.change (s.addressOf name) key = oc at hdue
    cases hdue with
    | reported hdue => exact (howes _).mpr ⟨rfl, hdue⟩

variable [LawfulStorage σ]

/-- What a run does to one entry. -/
structure Entry (s : System σ) (name key : String) (es : List ClientEvent)
    (P : Pool (World σ) (ClientThread Unit)) : Prop where
  tracks : Tracks s name key es P.threads
  justified : EveryStep
    (Reports.Justified (storeChange (s.addressOf name) key) (viewReport name key)) es
  stored : (P.state.value (s.addressOf name) key).isSome =
    Reports.valueAfter (storeChange (s.addressOf name) key)
      (s.world.value (s.addressOf name) key).isSome es
  listed : P.state.master.fileView.Lists name key ↔
    Reports.valueAfter (viewReport name key) (s.world.value (s.addressOf name) key).isSome es = true

theorem entry_of_reaches (key : String) (hw : Wired s) (hrules : PutsAndRemoves s)
    (hagree : ViewAgrees s) (hname : s.IsManager name)
    (h : Reaches s.ConcurrentStep ⟨s.world, []⟩ es P) :
    Entry s name key es P := by
  induction h with
  | nil =>
      refine ⟨⟨fun i p hi => by simp at hi, fun x hx => by simp at hx⟩, everyStep_nil, rfl, ?_⟩
      exact hagree name hname key
  | @snoc es e P P' _ hstep ih =>
      obtain ⟨htracks, hjust, hstored, hlisted⟩ := ih
      cases hstep with
      | @spawn w ts p hp =>
          obtain ⟨call, rfl⟩ := hp
          refine ⟨htracks.spawn hw hrules call, everyStep_snoc.mpr ⟨hjust, ?_⟩, ?_, ?_⟩
          · intro x hx
            cases hx
          · rw [Reports.valueAfter_snoc]
            exact hstored
          · rw [Reports.valueAfter_snoc]
            exact hlisted
      | @step w w' ts i p p' l hi hstep =>
          obtain ⟨htracks', hlast⟩ := htracks.step hw hname hi hstep
          obtain ⟨k, r, rfl, hcall, rfl⟩ := hstep
          refine ⟨htracks', everyStep_snoc.mpr ⟨hjust, hlast⟩, ?_, ?_⟩
          · rw [Reports.valueAfter_snoc, ← hstored]
            simpa [storeChange] using World.value_handle hcall (s.addressOf name) key
          · rw [Reports.valueAfter_snoc]
            simpa [viewReport] using World.lists_handle hcall hlisted

/-- When a handler reports a put of the key at the manager, no removal there that
is older than the put is still unreported, and the other way round. -/
def ReportsInTurn (s : System σ) (name key : String) (es : List ClientEvent) : Prop :=
  EveryStep (Reports.InTurn (storeChange (s.addressOf name) key) (viewReport name key)) es

/-- **Concurrent clients.** From a right view, handlers of PUT rules that put and
GET rules that remove run at the same time. When none of them is running any
more, the master is right about every key at every manager where no report has
overtaken an older change to the opposite. -/
theorem lists_iff_stored_of_inTurn (hw : Wired s) (hrules : PutsAndRemoves s)
    (hagree : ViewAgrees s) (hname : s.IsManager name)
    (h : Reaches s.ConcurrentStep ⟨s.world, []⟩ es P) (hdone : ∀ p ∈ P.threads, p = .done ())
    (hturn : s.ReportsInTurn name key es) :
    P.state.master.fileView.Lists name key ↔
      (P.state.value (s.addressOf name) key).isSome := by
  obtain ⟨htracks, hjust, hstored, hlisted⟩ := entry_of_reaches key hw hrules hagree hname h
  have hnone : s.unreportedChanges name key es = [] := by
    refine List.eq_nil_iff_forall_not_mem.mpr fun x hx => ?_
    obtain ⟨p, hp⟩ : ∃ p, P.threads[x.1]? = some p :=
      ⟨_, List.getElem?_eq_getElem (htracks.bounded x hx)⟩
    obtain ⟨b, req, hphase, howes⟩ := htracks.owes x.1 p hp
    rw [hdone p (List.mem_of_getElem? hp)] at hphase
    have hdue := ((howes x.2).mp hx).2
    rw [hphase.of_done] at hdue
    exact not_owes_nil hdue
  have hone : ∀ e ∈ es,
      storeChange (s.addressOf name) key e = none ∨ viewReport name key e = none := by
    intro e _
    cases e with
    | spawn p => exact .inl rfl
    | step i l =>
        rcases l.2.change_or_report (s.addressOf name) name key with hc | hr
        · exact .inl (by simp [storeChange, hc])
        · exact .inr (by simp [viewReport, hr])
  rw [hlisted, hstored, Reports.valueAfter_eq hone hjust hturn hnone]

/-! ## A report that is overtaken -/

section Example

open World.TwoManagers

/-- The client puts at the second manager, and removes there when it gets. -/
def putRule : Rule := ⟨.put, "k", [.put ⟨"k", { name := second.name }⟩]⟩

def removeRule : Rule :=
  ⟨.get, "k", [.remove ⟨"k", { name := second.name }⟩, .get ⟨"k", { name := second.name }⟩]⟩

/-- The client of `twoManagerService` has been given both rules. -/
def twoRules : System MapStorage :=
  (oneRule putRule).setRules "c:1"
    ((({} : RuleDb).addRule (putRule.resolve twoManagerService.addressOf)).addRule
      (removeRule.resolve twoManagerService.addressOf))

theorem reaches_twoRules :
    Reaches Step {} (starts ++ [.installRule ⟨"client:c", putRule⟩] ++
      [.installRule ⟨"client:c", removeRule⟩]) twoRules :=
  .snoc (reaches_oneRule putRule (by decide)) (step_installRule _ removeRule (by decide))

theorem viewAgrees_twoRules : ViewAgrees twoRules := by
  refine viewAgrees_of_reaches reaches_twoRules fun e he t => ?_
  simp only [starts, List.cons_append, List.nil_append, List.mem_cons, List.not_mem_nil,
    or_false] at he
  rcases he with rfl | rfl | rfl | rfl | rfl <;> rfl

/-- The rules of the client of `twoRules`. -/
theorem rules_twoRules {uri k : String} {d : RuleDb} {r : Rule}
    (hd : twoRules.clients.lookup uri = some d) (hr : d.ruleDb.lookup k = some r) :
    k = RuleDb.getRuleKey "k" .get ∧ r = removeRule.resolve twoManagerService.addressOf ∨
      k = RuleDb.getRuleKey "k" .put ∧ r = putRule.resolve twoManagerService.addressOf := by
  have hclient : d = (({} : RuleDb).addRule (putRule.resolve twoManagerService.addressOf)).addRule
      (removeRule.resolve twoManagerService.addressOf) := by
    simp only [twoRules, oneRule, setRules, twoManagerService, startManager, startClient,
      lookup_insert_ite] at hd
    split at hd
    · exact (Option.some.inj hd).symm
    · rename_i hne
      have huri : uri = "c:1" := by
        simpa [StorageMaster.rpcUri] using (Option.ite_none_right_eq_some.mp hd).1
      exact absurd huri hne
  subst hclient
  simp only [RuleDb.addRule, lookup_insert_ite] at hr
  split at hr
  · rename_i hk
    exact .inl ⟨hk, (Option.some.inj hr).symm⟩
  · split at hr
    · rename_i hk
      exact .inr ⟨hk, (Option.some.inj hr).symm⟩
    · simp at hr

theorem putsAndRemoves_twoRules : PutsAndRemoves twoRules where
  put uri d hd key r hr := by
    rcases rules_twoRules hd hr with ⟨hk, _⟩ | ⟨_, rfl⟩
    · exact absurd hk.symm (RuleDb.getRuleKey_get_ne_put _ _)
    · decide
  get uri d hd key r hr := by
    rcases rules_twoRules hd hr with ⟨_, rfl⟩ | ⟨hk, _⟩
    · exact ⟨[.remove ⟨"k", second⟩], ⟨"k", second⟩, rfl, by decide⟩
    · exact absurd hk (RuleDb.getRuleKey_get_ne_put _ _)

def putCall : Call := .put "c:1" ⟨"k", "x"⟩

def removeCall : Call := .get "c:1" ⟨"k"⟩

/-- The put reaches the manager before the removal, and its report the master
after the removal's. -/
def overtaking : List ClientEvent :=
  [.spawn (twoRules.handler putCall), .spawn (twoRules.handler removeCall),
    .step 0 ⟨_, .managerPut "n2:1" ⟨"k", "x"⟩⟩, .step 1 ⟨_, .managerRemove "n2:1" ⟨"k"⟩⟩,
    .step 1 ⟨_, .storageChange ⟨[.remove ⟨"k", second⟩]⟩⟩, .step 1 ⟨_, .managerGet "n2:1" ⟨"k"⟩⟩,
    .step 0 ⟨_, .storageChange {}⟩, .step 0 ⟨_, .storageChange ⟨[.put ⟨"k", second⟩]⟩⟩]

/-- The removal follows the report of the put. -/
def inTurn : List ClientEvent :=
  [.spawn (twoRules.handler putCall), .spawn (twoRules.handler removeCall),
    .step 0 ⟨_, .managerPut "n2:1" ⟨"k", "x"⟩⟩, .step 0 ⟨_, .storageChange {}⟩,
    .step 0 ⟨_, .storageChange ⟨[.put ⟨"k", second⟩]⟩⟩, .step 1 ⟨_, .managerRemove "n2:1" ⟨"k"⟩⟩,
    .step 1 ⟨_, .storageChange ⟨[.remove ⟨"k", second⟩]⟩⟩, .step 1 ⟨_, .managerGet "n2:1" ⟨"k"⟩⟩]

theorem concurrent_step {α : Type} {w : World MapStorage} {ts : List (ClientThread Unit)} (i : ℕ)
    {c : Rpc α} {k : α → ClientThread Unit} {r : α × World MapStorage}
    (hi : ts[i]? = some (.call c k)) (hcall : Rpc.handle c w = .ok r) :
    twoRules.ConcurrentStep ⟨w, ts⟩ (.step i ⟨α, c⟩) ⟨r.2, ts.set i (k r.1)⟩ :=
  .step hi (ClientThread.exists_step hcall)

/-- A put that is reported after a later removal stays listed. -/
theorem overtaken_put_stays_listed :
    Wired twoRules ∧ PutsAndRemoves twoRules ∧ ViewAgrees twoRules ∧
      twoRules.IsManager second.name ∧
      ∃ P, Reaches twoRules.ConcurrentStep ⟨twoRules.world, []⟩ overtaking P ∧
        (∀ p ∈ P.threads, p = .done ()) ∧
        ¬ (P.state.master.fileView.Lists second.name "k" ↔
          (P.state.value (twoRules.addressOf second.name) "k").isSome) := by
  refine ⟨wired_of_reaches reaches_twoRules, putsAndRemoves_twoRules, viewAgrees_twoRules,
    isManager_second, _,
    .cons (.spawn ⟨putCall, rfl⟩) (.cons (.spawn ⟨removeCall, rfl⟩)
      (.cons (concurrent_step 0 rfl rfl) (.cons (concurrent_step 1 rfl rfl)
        (.cons (concurrent_step 1 rfl rfl) (.cons (concurrent_step 1 rfl rfl)
          (.cons (concurrent_step 0 rfl rfl) (.cons (concurrent_step 0 rfl rfl) .nil))))))),
    ?_, ?_⟩
  · intro p hp
    have hends : ∀ p ∈ ([.done (), .done ()] : List (ClientThread Unit)), p = .done () := by simp
    exact hends p hp
  · decide

theorem lists_iff_stored_of_inTurn_putFirst :
    ∃ P, Reaches twoRules.ConcurrentStep ⟨twoRules.world, []⟩ inTurn P ∧
      (P.state.master.fileView.Lists second.name "k" ↔
        (P.state.value (twoRules.addressOf second.name) "k").isSome) := by
  have hreach : ∃ P, Reaches twoRules.ConcurrentStep ⟨twoRules.world, []⟩ inTurn P ∧
      ∀ p ∈ P.threads, p = .done () := by
    refine ⟨_, .cons (.spawn ⟨putCall, rfl⟩) (.cons (.spawn ⟨removeCall, rfl⟩)
        (.cons (concurrent_step 0 rfl rfl) (.cons (concurrent_step 0 rfl rfl)
          (.cons (concurrent_step 0 rfl rfl) (.cons (concurrent_step 1 rfl rfl)
            (.cons (concurrent_step 1 rfl rfl) (.cons (concurrent_step 1 rfl rfl) .nil))))))), ?_⟩
    intro p hp
    have hends : ∀ p ∈ ([.done (), .done ()] : List (ClientThread Unit)), p = .done () := by simp
    exact hends p hp
  obtain ⟨P, hP, hdone⟩ := hreach
  refine ⟨P, hP, lists_iff_stored_of_inTurn (wired_of_reaches reaches_twoRules)
    putsAndRemoves_twoRules viewAgrees_twoRules isManager_second hP hdone ?_⟩
  have hturn : twoRules.ReportsInTurn second.name "k" inTurn :=
    everyStep_cons.mpr ⟨Reports.inTurn_of_none rfl, everyStep_cons.mpr ⟨Reports.inTurn_of_none rfl,
      everyStep_cons.mpr ⟨Reports.inTurn_of_none rfl,
        everyStep_cons.mpr ⟨Reports.inTurn_of_none rfl,
          everyStep_cons.mpr ⟨Reports.inTurn_of_singleton (y := (0, true)) rfl,
          everyStep_cons.mpr ⟨Reports.inTurn_of_none rfl,
            everyStep_cons.mpr ⟨Reports.inTurn_of_singleton (y := (1, false)) rfl,
              everyStep_cons.mpr ⟨Reports.inTurn_of_none rfl, everyStep_nil⟩⟩⟩⟩⟩⟩⟩⟩
  exact hturn

end Example

end System

end ProgrammableCaching
