import ProgrammableCaching.System

/-! A value written under a PUT rule is read back under a GET rule, through the
master's resolution of names, the client's rule database and both interpreters
of actions. -/

namespace ProgrammableCaching

open UnorderedMap Replicas Handler

/-! ## Resolved actions -/

namespace Action

variable (addr : String → String)

@[simp] theorem isCopy_resolve (a : Action) : (a.resolve addr).isCopy = a.isCopy := by
  cases a <;> rfl

@[simp] theorem isRemove_resolve (a : Action) : (a.resolve addr).isRemove = a.isRemove := by
  cases a <;> rfl

@[simp] theorem isPutOf_resolve (key : String) (a : Action) :
    (a.resolve addr).isPutOf key = a.isPutOf key := by
  cases a <;> rfl

/-- A resolved action calls the address of one of its managers. -/
theorem target_resolve {a : Action} {uri : String} (h : uri ∈ (a.resolve addr).target) :
    ∃ m ∈ a.managers, addr m.name = uri := by
  cases a with
  | get a => exact ⟨a.mgr, by simp [managers], Option.some.inj h⟩
  | copyFrom a => exact ⟨a.srcMgr, by simp [managers], Option.some.inj h⟩
  | remove a => exact ⟨a.mgr, by simp [managers], Option.some.inj h⟩
  | put a => exact ⟨a.mgr, by simp [managers], Option.some.inj h⟩
  | notSet => cases h

end Action

namespace System

variable {σ : Type} [StorageInterface σ]

/-- Install two rules at a client, put a value, and get it. -/
def installPutGet (client : String) (first second : Rule) (uri key value : String) :
    Handler (System σ) (Status × GetReply) := do
  let _ ← installRule ⟨client, first⟩
  let _ ← installRule ⟨client, second⟩
  let _ ← put uri ⟨key, value⟩
  get uri ⟨key⟩

variable [LawfulStorage σ]

/-- A put followed by a get at a client that knows both rules. -/
theorem put_get_of_rules {s : System σ} {uri k v : String} {d : RuleDb} {putRule getRule : Rule}
    {actions : List Action} {last : GetAction} (hd : s.clients.lookup uri = some d)
    (hput : StorageClient.FindsRule d k .put putRule)
    (hget : StorageClient.FindsRule d k .get getRule)
    (hputActions : ∀ a ∈ putRule.action, a.isCopy ∨ a.isPutOf k)
    (haction : getRule.action = actions ++ [.get last]) (hkey : last.key = k)
    (hmoves : ∀ a ∈ actions, a.isCopy ∨ a.isRemove)
    (hrun : ∀ a ∈ putRule.action ++ getRule.action, ∀ u ∈ a.target, s.world.Running u)
    (hlastPut : ∃ pre post, Action.ops v putRule.action = pre ++ .put last.mgr.uri k v :: post ∧
      ∀ op ∈ post, op.cell ≠ (last.mgr.uri, k))
    (hkept : ∀ op ∈ Action.ops "" actions, op.cell ≠ (last.mgr.uri, k)) :
    ∃ s', (do let _ ← put uri ⟨k, v⟩; get uri ⟨k⟩ : Handler (System σ) _) s =
        .ok ((.ok, { value := v }), s') ∧
      ∀ u key, (∀ op ∈ Action.ops v putRule.action ++ Action.ops "" actions, op.cell ≠ (u, key)) →
        s'.world.value u key = s.world.value u key := by
  have hput' : StorageClient.FindsRule d (⟨k, v⟩ : PutRequest).key .put putRule := hput
  have hget' : StorageClient.FindsRule d (⟨k⟩ : GetRequest).key .get getRule := hget
  obtain ⟨w₁, hp, hputDone⟩ := StorageClient.put_runs hput' hputActions
    fun a ha => hrun a (by simp [ha])
  have hrun₁ : ∀ a ∈ getRule.action, ∀ u ∈ a.target, w₁.Running u :=
    fun a ha u hu => (hputDone.running u).mpr (hrun a (by simp [ha]) u hu)
  obtain ⟨w₂, hg, hgetDone⟩ := StorageClient.get_runs hget' haction hkey hmoves hrun₁
  -- the last write to the pair is the put, and the get finds it
  have hwritten : w₁.value last.mgr.uri k = some v := by
    obtain ⟨pre, post, hops, hpost⟩ := hlastPut
    rw [hputDone.value, hops, run_append, run_cons, run_of_untouched post hpost]
    exact set_self _ _ _ _
  rw [run_of_untouched _ hkept, hwritten] at hg
  refine ⟨{ s with world := w₂ }, ?_, ?_⟩
  · have hp' : put uri ⟨k, v⟩ s = .ok (.ok, { s with world := w₁ }) := by
      simp only [put, hd, hp]
      rfl
    refine (bind_of_ok hp').trans ?_
    simp only [get, hd, hg]
    rfl
  · intro u key h
    rw [hgetDone.value, run_of_untouched _ fun op hop => h op (by simp [hop]),
      hputDone.value, run_of_untouched _ fun op hop => h op (by simp [hop])]

omit [StorageInterface σ] [LawfulStorage σ] in
/-- Installing a PUT and a GET rule of one key, in either order, leaves both in
the client's database, resolved with the same table. -/
theorem install_both {s : System σ} {addr : String → String}
    (haddr : addr = s.world.master.peerTracker.uriOf)
    {client k : String} {d : RuleDb} {putRule getRule first second : Rule}
    (hclient : s.world.master.peerTracker.Tracked client)
    (hd : s.clients.lookup (addr client) = some d)
    (horder : (first, second) = (putRule, getRule) ∨ (first, second) = (getRule, putRule))
    (hputKey : putRule.opType = .put ∧ putRule.key = k)
    (hgetKey : getRule.opType = .get ∧ getRule.key = k)
    (htracked : ∀ name ∈ putRule.managerNames ++ getRule.managerNames,
      s.world.master.peerTracker.Tracked name) :
    ∃ s₁ d₂, installRule ⟨client, first⟩ s = .ok (.ok, s₁) ∧
      installRule ⟨client, second⟩ s₁ = .ok (.ok, s₁.setRules (addr client) d₂) ∧
      s₁.world = s.world ∧
      StorageClient.FindsRule d₂ k .put (putRule.resolve addr) ∧
      StorageClient.FindsRule d₂ k .get (getRule.resolve addr) := by
  subst haddr
  have hnames : (∀ name ∈ first.managerNames, s.world.master.peerTracker.Tracked name) ∧
      ∀ name ∈ second.managerNames, s.world.master.peerTracker.Tracked name := by
    rcases horder with h | h <;> cases h
    · exact ⟨fun n hn => htracked n (by simp [hn]), fun n hn => htracked n (by simp [hn])⟩
    · exact ⟨fun n hn => htracked n (by simp [hn]), fun n hn => htracked n (by simp [hn])⟩
  have hne : RuleDb.getRuleKey k .get ≠ RuleDb.getRuleKey k .put :=
    RuleDb.getRuleKey_get_ne_put k k
  refine ⟨_, _, installRule_of_tracked hclient hd hnames.1,
    installRule_of_tracked hclient (lookup_setRules _ _ _) hnames.2, rfl, ?_, ?_⟩
  · rcases horder with h | h <;> cases h <;>
      simp [StorageClient.FindsRule, RuleDb.addRule, Rule.resolve, hputKey, hgetKey, hne.symm]
  · rcases horder with h | h <;> cases h <;>
      simp [StorageClient.FindsRule, RuleDb.addRule, Rule.resolve, hputKey, hgetKey, hne]

/-- **Read your writes through the whole stack.** The names are tracked, the
client listens at its address, and the managers that the rules call are
running. The PUT rule consists of puts of `k` and of copies, the GET rule of
copies and removals before a get of `k`. If the last action of the PUT rule that
writes `k` at the address the get reads is a put, and no earlier action of the
GET rule writes or removes `k` there, then a put of `v` followed by a get
returns `v`, in whichever order the rules were installed; and a pair that no
action of either rule writes or removes is as it was. -/
theorem put_then_get_returns_value {s : System σ} {addr : String → String}
    (haddr : addr = s.world.master.peerTracker.uriOf)
    {client k v : String} {d : RuleDb} {putRule getRule first second : Rule}
    {actions : List Action} {last : GetAction}
    (hclient : s.world.master.peerTracker.Tracked client)
    (hd : s.clients.lookup (addr client) = some d)
    (horder : (first, second) = (putRule, getRule) ∨ (first, second) = (getRule, putRule))
    (hputKey : putRule.opType = .put ∧ putRule.key = k)
    (hgetKey : getRule.opType = .get ∧ getRule.key = k)
    (hputActions : ∀ a ∈ putRule.action, a.isCopy ∨ a.isPutOf k)
    (haction : getRule.action = actions ++ [.get last]) (hkey : last.key = k)
    (hmoves : ∀ a ∈ actions, a.isCopy ∨ a.isRemove)
    (htracked : ∀ name ∈ putRule.managerNames ++ getRule.managerNames,
      s.world.master.peerTracker.Tracked name)
    (hrun : ∀ name ∈ putRule.managerNames ++ getRule.managerNames, s.world.Running (addr name))
    (hlastPut : ∃ pre post,
      Action.ops v (putRule.resolve addr).action = pre ++ .put (addr last.mgr.name) k v :: post ∧
        ∀ op ∈ post, op.cell ≠ (addr last.mgr.name, k))
    (hkept : ∀ op ∈ Action.ops "" (actions.map (·.resolve addr)),
      op.cell ≠ (addr last.mgr.name, k)) :
    ∃ s', installPutGet client first second (addr client) k v s =
        .ok ((.ok, { value := v }), s') ∧
      ∀ uri key, (∀ op ∈ Action.ops v (putRule.resolve addr).action ++
          Action.ops "" (actions.map (·.resolve addr)), op.cell ≠ (uri, key)) →
        s'.world.value uri key = s.world.value uri key := by
  obtain ⟨s₁, d₂, hfirst, hsecond, hworld, hput, hget⟩ :=
    install_both haddr hclient hd horder hputKey hgetKey htracked
  obtain ⟨s', hs', hframe⟩ := @put_get_of_rules σ _ _ (s₁.setRules (addr client) d₂)
    (addr client) k v d₂ (putRule.resolve addr) (getRule.resolve addr)
    (actions.map (·.resolve addr))
    { last with mgr := { last.mgr with uri := addr last.mgr.name } }
    (lookup_setRules _ _ _) hput hget
    (by simpa [Rule.resolve] using hputActions)
    (by simp [Rule.resolve, haction, Action.resolve]) hkey
    (by simpa using hmoves)
    (by
      intro a ha u hu
      simp only [Rule.resolve, ← List.map_append, List.mem_map] at ha
      obtain ⟨b, hb, rfl⟩ := ha
      obtain ⟨m, hm, rfl⟩ := Action.target_resolve _ hu
      change s₁.world.Running _
      rw [hworld]
      apply hrun m.name
      simp only [Rule.managerNames, List.mem_append, List.mem_flatMap] at hb ⊢
      have hmem := List.mem_map_of_mem (f := Manager.name) hm
      exact hb.imp (fun h => ⟨b, h, hmem⟩) fun h => ⟨b, h, hmem⟩)
    hlastPut hkept
  refine ⟨s', (bind_of_ok hfirst).trans ((bind_of_ok hsecond).trans hs'), fun uri key h => ?_⟩
  rw [hframe uri key h, ← hworld]
  rfl

section Example

open World.TwoManagers

/-- Put at the second manager after a copy to it; get there after a removal at
the first. -/
def rewritePut : Rule :=
  ⟨.put, "k", [.copyFrom ⟨"k", { name := second.name }, { name := first.name }⟩,
    .put ⟨"k", { name := second.name }⟩]⟩

def rewriteGet : Rule :=
  ⟨.get, "k", [.remove ⟨"k", { name := first.name }⟩, .get ⟨"k", { name := second.name }⟩]⟩

theorem put_then_get_returns_value_rewrite :
    ∃ s', installPutGet "client:c" rewriteGet rewritePut "c:1" "k" "w" twoManagerService =
        .ok ((.ok, { value := "w" }), s') ∧
      ∀ uri key, (∀ op ∈ Action.ops "w" (rewritePut.resolve
            twoManagerService.world.master.peerTracker.uriOf).action ++
          Action.ops "" ([Action.remove ⟨"k", { name := first.name }⟩].map
            (·.resolve twoManagerService.world.master.peerTracker.uriOf)), op.cell ≠ (uri, key)) →
        s'.world.value uri key = twoManagerService.world.value uri key :=
  @put_then_get_returns_value MapStorage _ _ twoManagerService _ rfl "client:c" "k" "w" {}
    rewritePut rewriteGet rewriteGet rewritePut [.remove ⟨"k", { name := first.name }⟩]
    ⟨"k", { name := second.name }⟩
    (by decide) (by rfl) (.inr rfl) ⟨rfl, rfl⟩ ⟨rfl, rfl⟩ (by decide) rfl rfl (by decide)
    (by decide) (by decide) ⟨[.copy "n2:1" "n1:1" "k"], [], rfl, by simp⟩ (by decide)

end Example

end System

end ProgrammableCaching
