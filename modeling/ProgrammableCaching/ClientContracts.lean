import ProgrammableCaching.FaultyThreads

/-! What a client does whatever its calls answer: it changes the managers only as the actions of its
rules say, and it stores only the value that it was asked to put and values that it was told. -/

namespace ProgrammableCaching

open UnorderedMap Replicas Handler RpcInterfaces Pools Contracts

/-- The storage operations by which an action can change a manager, where `v` is the value that a
copy brings or that a request puts. A remove action of a PUT rule also puts at the blank address. -/
def Action.footprint (v : String) : Action → List (Op String String String)
  | .copyFrom a => [.put a.srcMgr.uri a.key v]
  | .remove a => [.remove a.mgr.uri a.key, .put "" "" v]
  | .put a => [.put a.mgr.uri a.key v]
  | .get _ | .notSet => []

/-- The operations of the actions are all allowed. -/
def Action.Within (allowed : Op String String String → Prop) (actions : List Action) : Prop :=
  ∀ a ∈ actions, ∀ v, ∀ op ∈ a.footprint v, allowed op

/-- The operations of the rules that a client finds are all allowed. -/
def RuleDb.Within (allowed : Op String String String → Prop) (d : RuleDb) : Prop :=
  ∀ key op r, StorageClient.FindsRule d key op r → Action.Within allowed r.action

/-- What values of what keys are accounted for. -/
abbrev Accounted := String → String → Prop

/-- The storage operations of a call are allowed, and a value that it stores is accounted for; what
it is told is accounted for from then on. -/
def clientContract (allowed : Op String String String → Prop) : Contract Rpc Failure Accounted where
  requires c κ := ∀ op ∈ c.op, allowed op ∧ ∀ uri k v, op = .put uri k v → κ k v
  ensures c b κ := ∀ k v, c.Tells b k v → κ k v
  excuses _ := True

/-- The value that a `Get` has come back with is accounted for. -/
def ReplyAccounted (r : Option (String × GetReply)) (κ : Accounted) : Prop :=
  ∀ key reply, r = some (key, reply) → κ key reply.value

namespace StorageClient

variable {allowed : Op String String String → Prop} {κ : Accounted} {actions : List Action}

theorem meets_check (b : Bool) :
    Meets (clientContract allowed) (fun _ _ => b = true) (check b : ClientThread Unit) κ := by
  cases b with
  | false => exact meets_throw trivial
  | true => exact meets_pure fun _ _ => rfl

theorem meets_call {β : Type} {c : Rpc β}
    (h : ∀ op ∈ c.op, allowed op ∧ ∀ uri k v, op = .put uri k v → κ k v) :
    Meets (clientContract allowed) (fun _ _ => True) (Prog.perform c : ClientThread β) κ :=
  meets_perform (fun _ hle op hop => ⟨(h op hop).1, fun uri k v heq =>
    hle _ _ ((h op hop).2 uri k v heq)⟩) fun _ _ _ _ _ _ => trivial

theorem meets_storageChange (req : List Action) :
    Meets (clientContract allowed) (fun _ _ => True)
      (storageChange { storageChange := req } : ClientThread Status) κ :=
  meets_call (by simp [Rpc.op])

/-- A copy stores what it was told. -/
theorem meets_executeCopyAction {a : CopyFromAction}
    (ha : ∀ v, ∀ op ∈ (Action.copyFrom a).footprint v, allowed op) :
    Meets (clientContract allowed) (fun _ _ => True) (executeCopyAction a : ClientThread Unit)
      κ := by
  refine fun _ _ => ⟨by simp [clientContract, Rpc.op], fun reply _ _ htold κ' hle => ⟨?_, ?_⟩⟩
  · rintro op ⟨⟩
    refine ⟨ha reply.value _ (by simp [Action.footprint]), fun uri k v heq => ?_⟩
    cases heq
    exact hle _ _ (htold _ _ ⟨rfl, rfl⟩)
  · exact fun _ _ _ _ _ _ => trivial

theorem meets_executeRemoveAction {a : RemoveAction}
    (ha : ∀ v, ∀ op ∈ (Action.remove a).footprint v, allowed op) :
    Meets (clientContract allowed) (fun _ _ => True) (executeRemoveAction a : ClientThread Unit)
      κ := by
  refine (meets_call ?_).bind fun _ _ _ _ => meets_pure fun _ _ => trivial
  rintro op ⟨⟩
  exact ⟨ha "" _ (by simp [Action.footprint]), nofun⟩

theorem meets_getLoop (h : Action.Within allowed actions) (req : List Action) :
    Meets (clientContract allowed) (fun _ _ => True) (getLoop actions req : ClientThread _) κ := by
  induction actions generalizing req κ with
  | nil => exact meets_pure fun _ _ => trivial
  | cons a rest ih =>
      obtain ⟨ha, hrest⟩ := List.forall_mem_cons.mp h
      cases a with
      | get a => exact meets_throw trivial
      | put a => exact meets_throw trivial
      | notSet => exact ih hrest req
      | copyFrom a => exact (meets_executeCopyAction ha).bind fun _ _ _ _ => ih hrest _
      | remove a => exact (meets_executeRemoveAction ha).bind fun _ _ _ _ => ih hrest _

/-- The put of a put action, or the one that a remove action falls through to. -/
theorem meets_putCase {request : PutRequest} (hput : κ request.key request.value) {a : Action}
    (ha : ∀ v, .put a.putAction.mgr.uri a.putAction.key v ∈ a.footprint v)
    (hallowed : ∀ v, ∀ op ∈ a.footprint v, allowed op) :
    Meets (clientContract allowed) (fun _ _ => True) (putCase request a : ClientThread Unit)
      κ := by
  refine (meets_check _).bind fun _ κ₁ hle hkey => ?_
  have hkey : a.putAction.key = request.key := of_decide_eq_true hkey
  refine Meets.bind (Q := fun _ _ => True) (meets_call ?_) fun _ _ _ _ =>
    (meets_storageChange []).bind fun _ _ _ _ => meets_pure fun _ _ => trivial
  rintro op ⟨⟩
  refine ⟨hallowed request.value _ (hkey ▸ ha request.value), fun uri k v heq => ?_⟩
  cases heq
  exact hle _ _ hput

theorem meets_putLoop {request : PutRequest} (hput : κ request.key request.value)
    (h : Action.Within allowed actions) (req : List Action) :
    Meets (clientContract allowed) (fun _ _ => True)
      (putLoop request actions req : ClientThread _) κ := by
  induction actions generalizing req κ with
  | nil => exact meets_pure fun _ _ => trivial
  | cons a rest ih =>
      obtain ⟨ha, hrest⟩ := List.forall_mem_cons.mp h
      cases a with
      | get a => exact meets_throw trivial
      | notSet => exact ih hput hrest req
      | copyFrom a =>
          exact (meets_executeCopyAction ha).bind fun _ _ hle _ => ih (hle _ _ hput) hrest _
      | put a =>
          refine (meets_putCase hput (fun v => ?_) ha).bind fun _ _ hle _ =>
            ih (hle _ _ hput) hrest _
          simp [Action.footprint, Action.putAction]
      | remove a =>
          refine (meets_executeRemoveAction ha).bind fun _ κ₁ hle₁ _ => ?_
          have hput₁ : κ₁ request.key request.value := hle₁ _ _ hput
          refine (meets_putCase hput₁ (fun v => ?_) ha).bind fun _ _ hle₂ _ =>
            ih (hle₂ _ _ hput₁) hrest _
          simp [Action.footprint, Action.putAction]

/-- A `Get` comes back with what the last call has told. -/
theorem meets_getWith {r : Rule} (request : GetRequest) (h : Action.Within allowed r.action) :
    Meets (clientContract allowed) (fun reply κ => κ request.key reply.2.value)
      (getWith r request : ClientThread _) κ := by
  refine (meets_getLoop (fun a ha => h a (List.mem_of_mem_dropLast ha)) _).bind fun req _ _ _ => ?_
  refine (meets_storageChange req).bind fun s _ _ _ => (meets_check _).bind fun _ _ _ _ => ?_
  cases r.action.getLast? with
  | none => exact meets_throw trivial
  | some a =>
      cases a with
      | get last =>
          refine (meets_check _).bind fun _ _ _ hkey => ?_
          have hkey : last.key = request.key := of_decide_eq_true hkey
          refine fun _ _ => ⟨by simp [clientContract, Rpc.op], fun reply _ _ htold _ hle => ?_⟩
          exact hle _ _ (htold _ _ ⟨hkey.symm, rfl⟩)
      | _ => exact meets_throw trivial

theorem meets_getThread {d : RuleDb} (request : GetRequest) (hd : d.Within allowed) :
    Meets (clientContract allowed) ReplyAccounted (getThread d request) κ := by
  have hget : Meets (clientContract allowed) (fun reply κ => κ request.key reply.2.value)
      (get d request : ClientThread _) κ := by
    rw [get_eq_getWith]
    refine (meets_check _).bind fun _ _ _ hfound => ?_
    obtain ⟨r, hr⟩ := Option.isSome_iff_exists.mp hfound
    simp only [RuleDb.getMatchingRule, hr, lift, pure_bind]
    exact meets_getWith request (hd _ _ _ hr)
  refine hget.bind fun reply _ _ hreply => meets_pure fun _ hle => ?_
  rintro _ _ heq
  cases heq
  exact hle _ _ hreply

theorem meets_putThread {d : RuleDb} {request : PutRequest} (hput : κ request.key request.value)
    (hd : d.Within allowed) :
    Meets (clientContract allowed) ReplyAccounted (putThread d request) κ := by
  have hrun : Meets (clientContract allowed) (fun _ _ => True) (put d request : ClientThread _)
      κ := by
    rw [put_eq_putWith]
    refine (meets_check _).bind fun _ _ hle hfound => ?_
    obtain ⟨r, hr⟩ := Option.isSome_iff_exists.mp hfound
    simp only [RuleDb.getMatchingRule, hr, lift, pure_bind]
    refine (meets_putLoop (hle _ _ hput) (hd _ _ _ hr) _).bind fun req _ _ _ => ?_
    refine (meets_storageChange req).bind fun s _ _ _ => ?_
    exact (meets_check _).bind fun _ _ _ _ => meets_pure fun _ _ => trivial
  exact hrun.bind fun _ _ _ _ => meets_pure fun _ _ _ _ hnone => by cases hnone

end StorageClient

/-! ## The calls of a run -/

section Runs

variable {σ : Type} [StorageInterface σ] [LawfulStorage σ]

end Runs

end ProgrammableCaching
