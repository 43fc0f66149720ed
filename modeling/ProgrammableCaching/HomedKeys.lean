import ProgrammableCaching.Library.Linearizability
import ProgrammableCaching.Coherence
import ProgrammableCaching.Threads

/-! Rules that use every manager but one as a cache of a key: the key's home is where every `Put`
of it stores the value and where every `Get` of it reads in the end. Clients with such rules serve a
map from keys to values, however their calls take turns. -/

namespace ProgrammableCaching

open UnorderedMap Replicas Handler RpcInterfaces Pools Runs Linearizability

/-! ## The map the clients serve -/

inductive MapRequest
  | get (request : GetRequest)
  | put (request : PutRequest)
  deriving DecidableEq, Repr

inductive MapReply
  | got (reply : Status × GetReply)
  | stored (status : Status)
  deriving DecidableEq, Repr

/-- A map from keys to values; a key without a value reads as the empty string. -/
def serveMap (m : String → Option String) : MapRequest → MapReply × (String → Option String)
  | .get request => (.got (.ok, { value := (m request.key).getD "" }), m)
  | .put request => (.stored .ok, Function.update m request.key (some request.value))

/-! ## Rules with homes -/

section Homes

variable (home : String → String)

/-- The action writes no key at its home. -/
def Action.SparesHomes (a : Action) : Prop := ∀ op ∈ a.op "", op.cell.1 ≠ home op.cell.2

instance (a : Action) : Decidable (a.SparesHomes home) :=
  inferInstanceAs (Decidable (∀ op ∈ a.op "", op.cell.1 ≠ home op.cell.2))

/-- A GET rule reads the key at its home in the end; copies and removals before that are of
cached copies. -/
def Rule.ReadsHome (r : Rule) : Prop :=
  ∃ actions last, r.action = actions ++ [.get last] ∧ last.mgr.uri = home last.key ∧
    ∀ a ∈ actions, a.SparesHomes home

/-- A PUT rule stores at the home once; all it does before and after is to cached copies. -/
def Rule.WritesHome (r : Rule) : Prop :=
  ∃ pre a post, r.action = pre ++ .put a :: post ∧ a.mgr.uri = home a.key ∧
    (∀ b ∈ pre, b.SparesHomes home) ∧ ∀ b ∈ post, b.SparesHomes home

/-- The rules a client finds use the homes. -/
structure RuleDb.Homed (d : RuleDb) : Prop where
  get : ∀ key r, StorageClient.FindsRule d key .get r → r.ReadsHome home
  put : ∀ key r, StorageClient.FindsRule d key .put r → r.WritesHome home

/-- The code of a client that serves the request, with the rules it has at that time. -/
inductive HomedClient : MapRequest → ClientThread MapReply → Prop
  | get {d : RuleDb} (request : GetRequest) : d.Homed home →
      HomedClient (.get request) (do return .got (← StorageClient.get d request))
  | put {d : RuleDb} (request : PutRequest) : d.Homed home →
      HomedClient (.put request) (do return .stored (← StorageClient.put d request))

/-- What the homes hold. -/
def World.homeValue {σ : Type} [StorageInterface σ] [LawfulStorage σ] (w : World σ) :
    String → Option String :=
  fun key => w.value (home key) key

/-! ## The calls and their roles -/

/-- The call leaves the homes alone. -/
def Rpc.SparesHomes {β : Type} : Rpc β → Prop
  | .managerPut uri request => uri ≠ home request.key
  | .managerRemove uri request => uri ≠ home request.key
  | .copyFromStore uri request _ => uri ≠ home request.key
  | .managerGet _ _ | .copyFromFetch _ _ | .storageChange _ => True

/-- The call reads or writes the requested key at its home. -/
inductive HomeCall : {β : Type} → MapRequest → Rpc β → (β → MapReply) → Prop
  | get (request : GetRequest) :
      HomeCall (.get request) (.managerGet (home request.key) request) fun r => .got (.ok, r.2)
  | put (request : PutRequest) :
      HomeCall (.put request) (.managerPut (home request.key) request) fun _ => .stored .ok

abbrev homeRoles : Roles Rpc MapRequest MapReply :=
  ⟨Rpc.SparesHomes home, HomeCall home⟩

end Homes

section Roles

variable {home : String → String} {σ : Type} [StorageInterface σ] [LawfulStorage σ]

theorem homeValue_of_effect {w w' : World σ} {ops : List (Op String String String)}
    (h : World.Effect ops w w') (hspares : ∀ op ∈ ops, op.cell.1 ≠ home op.cell.2) :
    w'.homeValue home = w.homeValue home := by
  funext key
  rw [World.homeValue, h.value]
  refine run_of_untouched ops fun op hop hcell => hspares op hop ?_
  rw [hcell]

theorem homeValue_of_sparesHomes {β : Type} {c : Rpc β} {w w' : World σ} {b : β}
    (hc : c.SparesHomes home) (h : Rpc.handle c w = .ok (b, w')) :
    w'.homeValue home = w.homeValue home := by
  cases c with
  | managerGet uri request => exact homeValue_of_effect (World.managerGet_ok h).2 (by simp)
  | managerPut uri request =>
      have hc : uri ≠ home request.key := hc
      exact homeValue_of_effect (World.managerPut_ok h).2 (by simpa [Op.cell] using hc)
  | managerRemove uri request =>
      have hc : uri ≠ home request.key := hc
      exact homeValue_of_effect (World.managerRemove_ok h).2 (by simpa [Op.cell] using hc)
  | copyFromFetch uri request => exact homeValue_of_effect (World.copyFromFetch_ok h).2.2 (by simp)
  | copyFromStore uri request reply =>
      have hc : uri ≠ home request.key := hc
      exact homeValue_of_effect (World.copyFromStore_ok h).2 (by simpa [Op.cell] using hc)
  | storageChange request =>
      cases h
      rfl

/-- The call at the home is a step of the map. -/
theorem serveMap_of_homeCall {β : Type} {request : MapRequest} {c : Rpc β}
    {answer : β → MapReply} {w w' : World σ} {b : β} (hc : HomeCall home request c answer)
    (h : Rpc.handle c w = .ok (b, w')) :
    serveMap (w.homeValue home) request = (answer b, w'.homeValue home) := by
  cases hc with
  | get request =>
      obtain ⟨hreply, heffect⟩ := World.managerGet_ok h
      obtain rfl := hreply
      rw [homeValue_of_effect heffect (by simp)]
      rfl
  | put request =>
      obtain ⟨_, heffect⟩ := World.managerPut_ok h
      refine Prod.ext rfl (funext fun key => ?_)
      change Function.update (w.homeValue home) request.key (some request.value) key =
        w'.value (home key) key
      rw [heffect.value]
      by_cases hkey : key = request.key
      · subst hkey
        simp [Replicas.apply, Replicas.set]
      · simp [Replicas.apply, Replicas.set, hkey, World.homeValue]

end Roles

/-! ## The code of the clients -/

namespace StorageClient

variable {home : String → String} {α : Type} {Q : α → Prop}

theorem idle_check (b : Bool) :
    Idle (homeRoles home) (fun _ => b = true) (check b : ClientThread Unit) := by
  cases b with
  | false => exact .fail _
  | true => exact .done rfl

theorem idle_executeCopyAction {a : CopyFromAction} (h : (Action.copyFrom a).SparesHomes home) :
    Idle (homeRoles home) (fun _ => True) (executeCopyAction a : ClientThread Unit) := by
  have hstore : a.srcMgr.uri ≠ home a.key := h _ rfl
  exact .call trivial fun _ => .call hstore fun _ => .done trivial

theorem idle_executeRemoveAction {a : RemoveAction} (h : (Action.remove a).SparesHomes home) :
    Idle (homeRoles home) (fun _ => True) (executeRemoveAction a : ClientThread Unit) := by
  have hremove : a.mgr.uri ≠ home a.key := h _ rfl
  exact .call hremove fun _ => .done trivial

/-- The loop of `Get` leaves the homes alone. -/
theorem idle_getLoop {actions : List Action} (h : ∀ a ∈ actions, a.SparesHomes home)
    (req : List Action) :
    Idle (homeRoles home) (fun _ => True) (getLoop actions req : ClientThread _) := by
  induction actions generalizing req with
  | nil => exact .done trivial
  | cons a rest ih =>
      obtain ⟨ha, hrest⟩ := List.forall_mem_cons.mp h
      cases a with
      | get a => exact .fail _
      | put a => exact .fail _
      | notSet => exact ih hrest req
      | copyFrom a => exact (idle_executeCopyAction ha).bind fun _ _ => ih hrest _
      | remove a => exact (idle_executeRemoveAction ha).bind fun _ _ => ih hrest _

/-- A put action away from the home, or the put of a remove action, which goes to the blank
address. -/
theorem idle_putCase {request : PutRequest} {a : Action} (hblank : ∀ key, home key ≠ "")
    (h : a.SparesHomes home) :
    Idle (homeRoles home) (fun _ => True) (putCase request a : ClientThread Unit) := by
  refine (idle_check _).bind fun _ hkey => ?_
  have hkey : a.putAction.key = request.key := of_decide_eq_true hkey
  have hput : a.putAction.mgr.uri ≠ home request.key := by
    cases a with
    | put a => exact hkey ▸ h _ rfl
    | _ => exact (hblank request.key).symm
  exact .call hput fun _ => .call trivial fun _ => .done trivial

/-- The loop of `Put` away from the homes. -/
theorem idle_putLoop {request : PutRequest} {actions : List Action}
    (hblank : ∀ key, home key ≠ "") (h : ∀ a ∈ actions, a.SparesHomes home) (req : List Action) :
    Idle (homeRoles home) (fun _ => True) (putLoop request actions req : ClientThread _) := by
  induction actions generalizing req with
  | nil => exact .done trivial
  | cons a rest ih =>
      obtain ⟨ha, hrest⟩ := List.forall_mem_cons.mp h
      cases a with
      | get a => exact .fail _
      | put a => exact (idle_putCase hblank ha).bind fun _ _ => ih hrest _
      | notSet => exact ih hrest req
      | copyFrom a => exact (idle_executeCopyAction ha).bind fun _ _ => ih hrest _
      | remove a =>
          refine (idle_executeRemoveAction ha).bind fun _ _ => ?_
          exact (idle_putCase hblank ha).bind fun _ _ => ih hrest _

/-- A `Get` under a rule that reads at the home. -/
theorem undecided_getWith {r : Rule} {request : GetRequest} (h : r.ReadsHome home) :
    Undecided (homeRoles home) (.get request)
      (do return .got (← getWith r request) : ClientThread MapReply) := by
  obtain ⟨actions, last, haction, hlast, hspares⟩ := h
  have hdrop : r.action.dropLast = actions := by simp [haction]
  have hget : r.action.getLast? = some (.get last) := by simp [haction]
  simp only [getWith, hdrop, hget, bind_assoc]
  refine (idle_getLoop hspares []).undecided fun req _ => .idle trivial fun s => ?_
  refine (idle_check _).undecided fun _ _ => (idle_check _).undecided fun _ hkey => ?_
  have hkey : last.key = request.key := of_decide_eq_true hkey
  rw [hkey] at hlast
  simp only [executeGetAction, hkey, hlast]
  exact .serve (.get request) fun _ => .done rfl

theorem undecided_get {d : RuleDb} {request : GetRequest} (hd : d.Homed home) :
    Undecided (homeRoles home) (.get request)
      (do return .got (← get d request) : ClientThread MapReply) := by
  rw [get_eq_getWith, bind_assoc]
  refine (idle_check _).undecided fun _ hfound => ?_
  obtain ⟨r, hr⟩ := Option.isSome_iff_exists.mp hfound
  simp only [RuleDb.getMatchingRule, hr, lift, pure_bind]
  exact undecided_getWith (hd.get _ _ hr)

theorem putLoop_append (request : PutRequest) (actions actions' req : List Action) :
    (putLoop request (actions ++ actions') req : ClientThread _) =
      putLoop request actions req >>= putLoop request actions' := by
  induction actions generalizing req with
  | nil => rfl
  | cons a rest ih =>
      cases a with
      | get a => rfl
      | notSet => exact ih req
      | put a => simp only [List.cons_append, putLoop, ih, bind_assoc]
      | copyFrom a => simp only [List.cons_append, putLoop, ih, bind_assoc]
      | remove a => simp only [List.cons_append, putLoop, ih, bind_assoc]

/-- A `Put` under a rule that stores at the home. -/
theorem undecided_putWith {r : Rule} {request : PutRequest} (hblank : ∀ key, home key ≠ "")
    (h : r.WritesHome home) :
    Undecided (homeRoles home) (.put request)
      (do return .stored (← putWith r request) : ClientThread MapReply) := by
  obtain ⟨pre, a, post, haction, ha, hpre, hpost⟩ := h
  simp only [putWith, haction, putLoop_append, putLoop, putCase, executePutAction, bind_assoc]
  refine (idle_putLoop hblank hpre []).undecided fun req _ => ?_
  refine (idle_check _).undecided fun _ hkey => ?_
  have hkey : a.key = request.key := of_decide_eq_true hkey
  rw [hkey] at ha
  simp only [Action.putAction, ha]
  -- the put at the home; behind it are reports and cached copies
  refine .serve (.put request) fun _ => .call trivial fun _ => ?_
  refine (idle_putLoop hblank hpost _).bind fun req' _ => .call trivial fun s => ?_
  exact (idle_check _).bind fun _ _ => .done rfl

theorem undecided_put {d : RuleDb} {request : PutRequest} (hblank : ∀ key, home key ≠ "")
    (hd : d.Homed home) :
    Undecided (homeRoles home) (.put request)
      (do return .stored (← put d request) : ClientThread MapReply) := by
  rw [put_eq_putWith, bind_assoc]
  refine (idle_check _).undecided fun _ hfound => ?_
  obtain ⟨r, hr⟩ := Option.isSome_iff_exists.mp hfound
  simp only [RuleDb.getMatchingRule, hr, lift, pure_bind]
  exact undecided_putWith hblank (hd.put _ _ hr)

end StorageClient

/-! ## Clients that take turns -/

variable {home : String → String} {σ : Type} [StorageInterface σ] [LawfulStorage σ]

/-- **Homed keys are linearizable.** Any number of clients, whose rules may differ and change, serve
`Get` and `Put` requests at the same time, and their calls to the managers and the master take turns
in any way. Every request takes effect at one moment between its arrival and its reply: the replies
are those of a single map from keys to values. -/
theorem homedKeys_linearizable (hblank : ∀ key, home key ≠ "") {w : World σ}
    {es : List (Option (Linearizability.Event MapRequest MapReply))}
    {P : Pool (World σ) (Option (ClientThread MapReply))}
    (hrun : Reaches (ServiceStep (HomedClient home) Rpc.handle) ⟨w, []⟩ es P) :
    Linearizable serveMap (w.homeValue home) (Linearizability.history es)
      (P.state.homeValue home) := by
  refine linearizable_of_atomicSteps (atomicSteps_of_roles (homeRoles home) ?_ ?_ ?_) hrun
  · intro request p hp
    cases hp with
    | get request hd => exact StorageClient.undecided_get hd
    | put request hd => exact StorageClient.undecided_put hblank hd
  · intro β c w b w' hc h
    exact homeValue_of_sparesHomes hc h
  · intro β request c answer w b w' hc h
    exact serveMap_of_homeCall hc h

/-! ## A reader that fills a cache while the key is written -/

section Cached

open World.TwoManagers

def firstIsHome : String → String := fun _ => first.uri

def cachingGet : Rule := ⟨.get, "k", [.copyFrom ⟨"k", second, first⟩, .get ⟨"k", first⟩]⟩

def writeThrough : Rule := ⟨.put, "k", [.put ⟨"k", first⟩, .copyFrom ⟨"k", second, first⟩]⟩

def cachingRules : RuleDb := RuleDb.addRule (RuleDb.addRule {} cachingGet) writeThrough

theorem rules_cachingRules {k : String} {r : Rule} (hr : cachingRules.ruleDb.lookup k = some r) :
    k = RuleDb.getRuleKey "k" .get ∧ r = cachingGet ∨
      k = RuleDb.getRuleKey "k" .put ∧ r = writeThrough := by
  simp only [cachingRules, RuleDb.addRule, lookup_insert_ite] at hr
  split at hr
  · rename_i hk
    exact .inr ⟨hk, (Option.some.inj hr).symm⟩
  · split at hr
    · rename_i hk
      exact .inl ⟨hk, (Option.some.inj hr).symm⟩
    · simp at hr

theorem homed_cachingRules : cachingRules.Homed firstIsHome where
  get key r hr := by
    rcases rules_cachingRules hr with ⟨_, rfl⟩ | ⟨hk, _⟩
    · exact ⟨[.copyFrom ⟨"k", second, first⟩], ⟨"k", first⟩, rfl, rfl, by decide⟩
    · exact absurd hk (RuleDb.getRuleKey_get_ne_put _ _)
  put key r hr := by
    rcases rules_cachingRules hr with ⟨hk, _⟩ | ⟨_, rfl⟩
    · exact absurd hk.symm (RuleDb.getRuleKey_get_ne_put _ _)
    · exact ⟨[], ⟨"k", first⟩, [.copyFrom ⟨"k", second, first⟩], rfl, rfl, by simp, by decide⟩

/-- The copy to the cache begins before the write and ends after it. -/
def readWhileWritten : List (Option (Linearizability.Event MapRequest MapReply)) :=
  [some (.invoke (.get ⟨"k"⟩)), some (.invoke (.put ⟨"k", "x"⟩)),
    none, none, none, none, none, none, none, some (.reply 1 (.stored .ok)), none, none,
    some (.reply 0 (.got (.ok, ⟨"x"⟩)))]

theorem service_call {w : World MapStorage} {ts : List (Option (ClientThread MapReply))} (i : ℕ)
    {β : Type} {c : Rpc β} {k : β → ClientThread MapReply} {r : β × World MapStorage}
    (hi : ts[i]? = some (some (.call c k))) (hcall : Rpc.handle c w = .ok r) :
    ServiceStep (HomedClient firstIsHome) Rpc.handle ⟨w, ts⟩ none
      ⟨r.2, ts.set i (some (k r.1))⟩ :=
  .call hi (ClientThread.exists_step hcall)

theorem homedKeys_linearizable_readWhileWritten :
    ∃ P, Reaches (ServiceStep (HomedClient firstIsHome) Rpc.handle) ⟨twoManagers, []⟩
        readWhileWritten P ∧
      Linearizable serveMap (twoManagers.homeValue firstIsHome)
        (Linearizability.history readWhileWritten)
        (P.state.homeValue firstIsHome) := by
  have hreach : ∃ P, Reaches (ServiceStep (HomedClient firstIsHome) Rpc.handle) ⟨twoManagers, []⟩
      readWhileWritten P := by
    refine ⟨_, .cons (.invoke (.get _ homed_cachingRules))
      (.cons (.invoke (.put _ homed_cachingRules))
      (.cons (service_call 0 rfl rfl) (.cons (service_call 1 rfl rfl)
      (.cons (service_call 0 rfl rfl) (.cons (service_call 1 rfl rfl)
      (.cons (service_call 1 rfl rfl) (.cons (service_call 1 rfl rfl)
      (.cons (service_call 1 rfl rfl) (.cons (.reply rfl)
      (.cons (service_call 0 rfl rfl) (.cons (service_call 0 rfl rfl)
      (.cons (.reply rfl) .nil))))))))))))⟩
  obtain ⟨P, hP⟩ := hreach
  exact ⟨P, hP, homedKeys_linearizable (fun _ => show first.uri ≠ "" by decide) hP⟩

end Cached

end ProgrammableCaching
