import ProgrammableCaching.Library.LastWriter
import ProgrammableCaching.ConcurrentMaster
import ProgrammableCaching.RuleHistory
import ProgrammableCaching.RuleThreads

/-! Which rules the clients have after any run of the service, however its handlers take turns: what
arrives is the installed rule with the addresses that were looked up for it, it stays until the next
word about its operation and key arrives, and a client that is new has none. -/

namespace ProgrammableCaching

open UnorderedMap Pools Runs LastWriter

/-! ## The addresses that the master tracks -/

namespace PeerTracker

/-- The address tracked under a name. -/
def trackedUri (t : PeerTracker) (name : String) : Option String :=
  (t.nameToPeer.lookup name).map Peer.rpcUri

theorem trackedUri_addPeer (t : PeerTracker) (name' uri conn name : String) :
    (t.addPeer name' uri conn).trackedUri name =
      if name = name' then some uri else t.trackedUri name := by
  simp only [trackedUri, addPeer, lookup_insert_ite]
  split <;> rfl

theorem trackedUri_of_getPeerFromName {t : PeerTracker} {name : String} {p : Peer}
    (h : t.getPeerFromName name = .ok p) : t.trackedUri name = some p.rpcUri := by
  unfold getPeerFromName at h
  split at h
  · rename_i hlookup
    cases h
    simp [trackedUri, hlookup]
  · cases h

end PeerTracker

/-- The address that the step gives the name. -/
def TableUpdate.address (name : String) : TableUpdate → Option String
  | addPeer name' uri _ => if name = name' then some uri else none
  | addManager _ | addFileToManager _ _ | removeFileFromManager _ _ => none

def LockedStep.address {β : Type} (name : String) : LockedStep β → Option String
  | update u => u.address name
  | populateFiles _ | populateUris _ => none

def ServiceCall.address {β : Type} (name : String) : ServiceCall β → Option String
  | locked c => c.address name
  | unlocked _ => none

theorem TableUpdate.trackedUri_apply (m : StorageMaster) (u : TableUpdate) (name : String) :
    (u.apply m).peerTracker.trackedUri name =
      (u.address name).or (m.peerTracker.trackedUri name) := by
  cases u with
  | addPeer name' uri conn =>
      rw [apply, onTracker, PeerTracker.trackedUri_addPeer, address]
      split <;> rfl
  | addManager | addFileToManager | removeFileFromManager => rfl

theorem LockedStep.trackedUri_handle {β : Type} {o : ViewOrder} {c : LockedStep β}
    {m m' : StorageMaster} {b : β} (h : c.handle o m = .ok (b, m')) (name : String) :
    m'.peerTracker.trackedUri name = (c.address name).or (m.peerTracker.trackedUri name) := by
  cases c with
  | update u =>
      cases h
      exact u.trackedUri_apply m name
  | populateFiles reply =>
      cases h
      rfl
  | populateUris reply =>
      simp only [handle] at h
      cases hreply : m.peerTracker.populateViewReply reply with
      | error e =>
          rw [hreply] at h
          cases h
      | ok r =>
          rw [hreply] at h
          cases h
          rfl

theorem System.callClient_world {σ : Type} (s : System σ) (delivery : Delivery) (uri : String)
    (call : RuleDb → Status × RuleDb) : (s.callClient delivery uri call).2.world = s.world := by
  unfold callClient
  split <;> rfl

/-- Only `AddPeer` changes what the master tracks. -/
theorem ServiceCall.trackedUri_serves {σ β : Type} {delivery : Delivery} {c : ServiceCall β}
    {s s' : System σ} {b : β} (h : c.Serves delivery s b s') (name : String) :
    s'.world.master.peerTracker.trackedUri name =
      (c.address name).or (s.world.master.peerTracker.trackedUri name) := by
  cases c with
  | locked c =>
      obtain ⟨o, master, _, hok, rfl⟩ := h
      exact LockedStep.trackedUri_handle hok name
  | unlocked c =>
      have hsame : s'.world.master.peerTracker = s.world.master.peerTracker := by
        cases c with
        | getPeerFromName => rw [h.2]
        | clientInstallRule uri request =>
            rw [show s' = _ from congrArg Prod.snd h, System.callClient_world]
        | clientRemoveRule uri request =>
            rw [show s' = _ from congrArg Prod.snd h, System.callClient_world]
        | listen uri => rw [show s' = _ from h, System.setRules_world]
        | other => exact h.2
      rw [hsame]
      rfl

/-! ## The rules of the clients -/

/-- What the call makes of the rules of the client at `uri`, when there is one. -/
def UnlockedStep.onClient {β : Type} (uri : String) (delivery : Delivery) (d : Option RuleDb) :
    UnlockedStep β → Option RuleDb
  | clientInstallRule uri' request =>
      if delivery ≠ .requestLost ∧ uri' = uri then d.map (·.call (.addRule request.rule)) else d
  | clientRemoveRule uri' request =>
      if delivery ≠ .requestLost ∧ uri' = uri then d.map (·.call (.removeRule request.rule)) else d
  | listen uri' => if uri' = uri then some {} else d
  | getPeerFromName _ | other => d

def ServiceCall.onClient {β : Type} (uri : String) (delivery : Delivery) (d : Option RuleDb) :
    ServiceCall β → Option RuleDb
  | locked _ => d
  | unlocked c => c.onClient uri delivery d

/-- What the step makes of the rule that the client at `uri` has for the operation on the key. -/
def UnlockedStep.ruleEffect {β : Type} (uri : String) (op : OperationType) (key : String)
    (delivery : Delivery) : UnlockedStep β → Option (Option Rule)
  | clientInstallRule uri' request =>
      if delivery ≠ .requestLost ∧ uri' = uri then
        (RuleCall.addRule request.rule).effect op key
      else none
  | clientRemoveRule uri' request =>
      if delivery ≠ .requestLost ∧ uri' = uri then
        (RuleCall.removeRule request.rule).effect op key
      else none
  | listen uri' => if uri' = uri then some none else none
  | getPeerFromName _ | other => none

def ServiceCall.ruleEffect {β : Type} (uri : String) (op : OperationType) (key : String)
    (delivery : Delivery) : ServiceCall β → Option (Option Rule)
  | locked _ => none
  | unlocked c => c.ruleEffect uri op key delivery

section Rules

variable {σ β : Type} {s s' : System σ} {uri : String} {delivery : Delivery} {c : ServiceCall β}

/-- A call that gets through changes the rules of the client that it is for. -/
theorem System.lookup_callClient (s : System σ) (delivery : Delivery) (uri' : String)
    (call : RuleDb → Status × RuleDb) (uri : String) :
    (s.callClient delivery uri' call).2.clients.lookup uri =
      if delivery ≠ .requestLost ∧ uri' = uri then
        (s.clients.lookup uri).map fun d => (call d).2
      else s.clients.lookup uri := by
  have hset : ∀ d, (s.setRules uri' d).clients.lookup uri =
      if uri = uri' then some d else s.clients.lookup uri := fun d => lookup_insert_ite ..
  unfold callClient
  by_cases huri : uri' = uri
  · subst huri
    cases hd : s.clients.lookup uri' <;> cases delivery <;> simp [hset, hd]
  · cases s.clients.lookup uri' <;> cases delivery <;> simp [hset, huri, Ne.symm huri]

/-- What a step does to a client. -/
theorem ServiceCall.lookup_serves {b : β} (h : c.Serves delivery s b s') (uri : String) :
    s'.clients.lookup uri = c.onClient uri delivery (s.clients.lookup uri) := by
  cases c with
  | locked c =>
      obtain ⟨o, master, _, _, rfl⟩ := h
      rfl
  | unlocked c =>
      cases c with
      | getPeerFromName =>
          rw [h.2]
          rfl
      | clientInstallRule uri' request =>
          obtain rfl := congrArg Prod.snd h
          exact System.lookup_callClient ..
      | clientRemoveRule uri' request =>
          obtain rfl := congrArg Prod.snd h
          exact System.lookup_callClient ..
      | listen uri' =>
          obtain rfl := h
          simp only [onClient, UnlockedStep.onClient, eq_comm (a := uri')]
          exact lookup_insert_ite ..
      | other =>
          rw [h.1]
          rfl

/-- The rules `d'` have for the operation on the key what is set, and where nothing is set what the
rules `o` had before. -/
def Follows (effect : Option (Option Rule)) (o : Option RuleDb) (op : OperationType) (key : String)
    (d' : RuleDb) : Prop :=
  ∃ r, d'.ruleDb.lookup (RuleDb.getRuleKey key op) = effect.getD r ∧
    (effect = none → ∃ d, o = some d ∧ d.ruleDb.lookup (RuleDb.getRuleKey key op) = r)

variable {op : OperationType} {key : String} {o : Option RuleDb} {d' : RuleDb}

theorem follows_same (h : o = some d') : Follows none o op key d' :=
  ⟨_, rfl, fun _ => ⟨d', h, rfl⟩⟩

theorem follows_call (hop : op.Declared) (call : RuleCall) (h : o.map (·.call call) = some d') :
    Follows (call.effect op key) o op key d' := by
  obtain ⟨d, hd, rfl⟩ := Option.map_eq_some_iff.mp h
  exact ⟨_, RuleDb.lookup_call d (.inl hop) key, fun _ => ⟨d, hd, rfl⟩⟩

theorem ServiceCall.follows_onClient (hop : op.Declared)
    (hd' : c.onClient uri delivery o = some d') :
    Follows (c.ruleEffect uri op key delivery) o op key d' := by
  cases c with
  | locked c => exact follows_same hd'
  | unlocked c =>
      cases c with
      | getPeerFromName | other => exact follows_same hd'
      | clientInstallRule | clientRemoveRule =>
          simp only [onClient, UnlockedStep.onClient] at hd'
          simp only [ruleEffect, UnlockedStep.ruleEffect]
          split_ifs at hd' ⊢
          · exact follows_call hop _ hd'
          · exact follows_same hd'
      | listen uri' =>
          simp only [onClient, UnlockedStep.onClient] at hd'
          simp only [ruleEffect, UnlockedStep.ruleEffect]
          split_ifs at hd' ⊢
          · cases hd'
            exact ⟨none, Finmap.lookup_empty _, nofun⟩
          · exact follows_same hd'

end Rules

/-! ## Histories -/

namespace ServiceThread

/-- The address that the event gives the name. -/
def addressEffect (name : String) : ServiceThreadEvent → Option String
  | .step _ l => l.2.1.address name
  | .spawn _ => none

/-- The address that the master tracks under the name after these events. -/
def addressAfter (es : List ServiceThreadEvent) (name : String) : Option String :=
  after (fun e => (addressEffect name e).map some) none es

/-- What the event makes of the rule that the client at `uri` has for the operation on the key. -/
def ruleEffect (uri : String) (op : OperationType) (key : String) :
    ServiceThreadEvent → Option (Option Rule)
  | .step _ l => l.2.1.ruleEffect uri op key l.2.2.1
  | .spawn _ => none

/-- Only a call of `InstallRule` that gets through gives a client a rule. -/
theorem ruleEffect_eq_some {uri : String} {op : OperationType} {key : String}
    {e : ServiceThreadEvent} {r : Rule} :
    ruleEffect uri op key e = some (some r) ↔ ∃ i sent delivery status,
      e = .step i ⟨_, .unlocked (.clientInstallRule uri sent), delivery, status⟩ ∧
        delivery ≠ .requestLost ∧ sent.rule = r ∧ r.opType = op ∧ r.key = key := by
  constructor
  · intro h
    cases e with
    | spawn p => cases h
    | step i l =>
        obtain ⟨β, c, delivery, b⟩ := l
        cases c with
        | locked c => cases h
        | unlocked c =>
            cases c with
            | getPeerFromName | other => cases h
            | listen uri' => simp [ruleEffect, ServiceCall.ruleEffect, UnlockedStep.ruleEffect] at h
            | clientRemoveRule uri' request =>
                simp [ruleEffect, ServiceCall.ruleEffect, UnlockedStep.ruleEffect,
                  RuleCall.effect_eq_some, RuleCall.outcome] at h
            | clientInstallRule uri' sent =>
                simp only [ruleEffect, ServiceCall.ruleEffect, UnlockedStep.ruleEffect,
                  Option.ite_none_right_eq_some, RuleCall.effect_eq_some, RuleCall.outcome,
                  Option.some.injEq] at h
                obtain ⟨⟨hdelivery, rfl⟩, hconcerns, rfl⟩ := h
                exact ⟨i, sent, delivery, b, rfl, hdelivery, rfl, hconcerns.1, hconcerns.2⟩
  · rintro ⟨i, sent, delivery, status, rfl, hdelivery, rfl, hop, hkey⟩
    simp only [ruleEffect, ServiceCall.ruleEffect, UnlockedStep.ruleEffect,
      Option.ite_none_right_eq_some, RuleCall.effect_eq_some, RuleCall.outcome]
    exact ⟨⟨hdelivery, trivial⟩, ⟨hop, hkey⟩, trivial⟩

variable {σ : Type} {allowed : ServiceRequest → Prop} {es : List ServiceThreadEvent}
  {s s' : System σ} {P : Pool (System σ) (ServiceThread Unit)} {uri : String}
  {op : OperationType} {key : String} {d : RuleDb}

/-- A client has the rule that the last word about its operation and key has set. -/
theorem lookup_eq_after (hrun : Reaches (ServiceThreadStep allowed) ⟨({} : System σ), []⟩ es P)
    (hd : P.state.clients.lookup uri = some d) (hop : op.Declared) :
    d.ruleDb.lookup (RuleDb.getRuleKey key op) = after (ruleEffect uri op key) none es := by
  induction hrun generalizing d with
  | nil => exact absurd hd (by simp)
  | snoc _ hstep ih =>
      rw [after_append, after_cons, after_nil]
      cases hstep with
      | spawn => exact ih hd
      | step _ hcall =>
          obtain ⟨β, c, k, b, _, ⟨delivery, rfl, hserves⟩, _⟩ := hcall
          rw [ServiceCall.lookup_serves hserves uri] at hd
          obtain ⟨r, hr, hbefore⟩ := ServiceCall.follows_onClient hop hd
          rw [hr]
          cases heffect : c.ruleEffect uri op key delivery with
          | some x => simp [ruleEffect, heffect]
          | none =>
              obtain ⟨d₀, hd₀, rfl⟩ := hbefore heffect
              simpa [ruleEffect, heffect] using ih hd₀

/-- The master tracks the addresses of the history. -/
def KnowsAddresses (es : List ServiceThreadEvent) (s : System σ) : Prop :=
  ∀ name, s.world.master.peerTracker.trackedUri name = addressAfter es name

theorem KnowsAddresses.spawn (h : KnowsAddresses es s) (p : ServiceThread Unit) :
    KnowsAddresses (es ++ [.spawn p]) s := by
  intro name
  simpa [addressAfter, addressEffect] using h name

theorem KnowsAddresses.step {β : Type} {c : ServiceCall β} {delivery : Delivery} {b : β}
    (h : KnowsAddresses es s) (i : ℕ) (hserves : c.Serves delivery s b s') :
    KnowsAddresses (es ++ [.step i ⟨β, c, delivery, b⟩]) s' := by
  intro name
  rw [ServiceCall.trackedUri_serves hserves, h name]
  cases haddress : c.address name <;> simp [addressAfter, addressEffect, haddress]

theorem knowsAddresses_of_reaches
    (hrun : Reaches (ServiceThreadStep allowed) ⟨({} : System σ), []⟩ es P) :
    KnowsAddresses es P.state := by
  induction hrun with
  | nil => exact fun _ => rfl
  | snoc _ hstep ih =>
      cases hstep with
      | spawn => exact ih.spawn _
      | step _ hcall =>
          obtain ⟨β, c, k, b, _, ⟨delivery, rfl, hserves⟩, _⟩ := hcall
          exact ih.step _ hserves

/-! ## Which rules a client has -/

/-- The thread `i` has looked up the name, and this is where the peer was last introduced then. -/
def LookedUp (es : List ServiceThreadEvent) (i : ℕ) (name uri : String) : Prop :=
  ∃ pre p delivery post, p.rpcUri = uri ∧ addressAfter pre name = some uri ∧
    es = pre ++ .step i ⟨_, .unlocked (.getPeerFromName name), delivery, .ok p⟩ :: post

theorem lookedUp_of_told (hrun : Reaches (ServiceThreadStep allowed) ⟨({} : System σ), []⟩ es P)
    {i : ℕ} {name uri : String} (h : Told es i name uri) : LookedUp es i name uri := by
  obtain ⟨pre, p, delivery, post, rfl, rfl⟩ := h
  obtain ⟨Q, hpre, hrest⟩ := hrun.prefix
  obtain ⟨Q', hstep, _⟩ := Reaches.cons_iff.mp hrest
  obtain ⟨⟨hanswer, _⟩, _⟩ := madeFor_of_step hpre hstep
  refine ⟨pre, p, delivery, post, rfl, ?_, rfl⟩
  rw [← knowsAddresses_of_reaches hpre name]
  exact PeerTracker.trackedUri_of_getPeerFromName hanswer.symm

/-- Why the thread `i` sends the rule to `uri`: it handles a request to the master, has looked up
this address for the client and one for each manager of the rule, and has changed nothing else; or
somebody sends the rule there past the master. -/
def Sends (es : List ServiceThreadEvent) (i : ℕ) (uri : String) (sent : InstallRuleRequest) :
    Prop :=
  (∃ request, (spawned es)[i]? = some (ServiceRequest.installRule request).handler ∧
    LookedUp es i request.client uri ∧ request.FilledIn (LookedUp es i) sent) ∨
  (spawned es)[i]? = some (ServiceRequest.clientInstallRule uri sent).handler

theorem sends_of_step {i : ℕ} {sent : InstallRuleRequest} {delivery : Delivery} {status : Status}
    {Q : Pool (System σ) (ServiceThread Unit)}
    (hrun : Reaches (ServiceThreadStep allowed) ⟨({} : System σ), []⟩ es P)
    (hstep : ServiceThreadStep allowed P
      (.step i ⟨_, .unlocked (.clientInstallRule uri sent), delivery, status⟩) Q) :
    Sends es i uri sent := by
  obtain ⟨_, request, _, hspawned, hmade⟩ := madeFor_of_step hrun hstep
  obtain ⟨request, rfl, hclient, action, hsent, hactions⟩ | rfl := hmade
  · refine .inl ⟨request, hspawned, lookedUp_of_told hrun hclient, action, hsent, ?_⟩
    exact hactions.imp fun a b hab => hab.mono fun name uri => lookedUp_of_told hrun
  · exact .inr hspawned

/-- **Which rules a client has.** Requests overlap in any way and messages get lost. A client has a
rule for an operation on a key exactly when a call has brought it this rule, and since then no call
has brought another word about the two and no new client has begun to listen there. The rule is
then one that came past the master, or the installed one with the addresses that were tracked when
its handler looked them up, which need no longer be tracked when the rule arrives. -/
theorem client_rules_exact
    (hrun : Reaches (ServiceThreadStep fun _ => True) ⟨({} : System σ), []⟩ es P)
    (hd : P.state.clients.lookup uri = some d) (hop : op.Declared) (key : String) (r : Rule) :
    d.getMatchingRule key op = .ok r ↔ ∃ pre i sent delivery status post,
      es = pre ++ .step i ⟨_, .unlocked (.clientInstallRule uri sent), delivery, status⟩ :: post ∧
        delivery ≠ .requestLost ∧ sent.rule = r ∧ r.opType = op ∧ r.key = key ∧
        Sends pre i uri sent ∧ ∀ e ∈ post, ruleEffect uri op key e = none := by
  have hmatch : d.getMatchingRule key op = .ok r ↔
      d.ruleDb.lookup (RuleDb.getRuleKey key op) = some r := by
    unfold RuleDb.getMatchingRule
    split <;> simp_all
  rw [hmatch, lookup_eq_after hrun hd hop, after_eq_iff_of_ne (by simp)]
  constructor
  · rintro ⟨pre, e, post, rfl, he, hpost⟩
    obtain ⟨i, sent, delivery, status, rfl, hdelivery, hrule, hconcerns⟩ := ruleEffect_eq_some.mp he
    obtain ⟨Q, hpre, hrest⟩ := hrun.prefix
    obtain ⟨Q', hstep, _⟩ := Reaches.cons_iff.mp hrest
    exact ⟨pre, i, sent, delivery, status, post, rfl, hdelivery, hrule, hconcerns.1, hconcerns.2,
      sends_of_step hpre hstep, hpost⟩
  · rintro ⟨pre, i, sent, delivery, status, post, rfl, hdelivery, hrule, hop', hkey, _, hpost⟩
    exact ⟨pre, _, post, rfl,
      ruleEffect_eq_some.mpr ⟨i, sent, delivery, status, rfl, hdelivery, hrule, hop', hkey⟩, hpost⟩

section Example

open World.TwoManagers

theorem serves_update {u : TableUpdate} :
    (ServiceCall.locked (.update u)).Serves .delivered s ()
      { s with world := { s.world with master := u.apply s.world.master } } := by
  obtain ⟨o, ho⟩ := StorageFileView.exists_traversedBy s.world.master.fileView
  exact ⟨o, _, ho, rfl, rfl⟩

theorem service_step {ts : List (ServiceThread Unit)} (i : ℕ) {β : Type} {c : ServiceCall β}
    {delivery : Delivery} {b : β} {k : β → ServiceThread Unit} (hi : ts[i]? = some (.call c k))
    (h : c.Serves delivery s b s') : ServiceThreadStep allowed ⟨s, ts⟩
      (.step i ⟨β, c, delivery, b⟩) ⟨s', ts.set i (k b)⟩ :=
  .step hi ⟨β, c, k, b, rfl, ⟨delivery, rfl, h⟩, rfl⟩

/-- Reads `k` at the first manager. -/
def readFirst : Rule :=
  ⟨.get, "k", [.get ⟨"k", { name := first.name }⟩]⟩

/-- The rule with the first address of the manager. -/
def readOld : Rule :=
  ⟨.get, "k", [.get ⟨"k", { name := first.name, uri := "n1:1" }⟩]⟩

def introduceFirst (peer port : String) : ServiceRequest :=
  .master (.update (.introduce peer (.storageManager { rpcHostname := "n1", rpcPort := port })))

/-- The first manager introduces itself again, at another port, when a rule for it has been filled
in but not yet sent. The call that is to remove the rule gets lost. -/
def lateRule : List ServiceThreadEvent :=
  [.spawn (introduceFirst "p1" "1").handler,
    .step 0 ⟨_, .locked (.update (.addPeer first.name "n1:1" "p1")), .delivered, ()⟩,
    .step 0 ⟨_, .locked (.update (.addManager first.name)), .delivered, ()⟩,
    .spawn (ServiceRequest.startClient "p2" "c" "1" true).handler,
    .step 1 ⟨_, .locked (.update (.addPeer "client:c" "c:1" "p2")), .delivered, ()⟩,
    .step 1 ⟨_, .unlocked (.listen "c:1"), .delivered, ()⟩,
    .spawn (ServiceRequest.installRule ⟨"client:c", readFirst⟩).handler,
    .step 2 ⟨_, .unlocked (.getPeerFromName "client:c"), .delivered, .ok ⟨"client:c", "c:1", "p2"⟩⟩,
    .step 2 ⟨_, .unlocked (.getPeerFromName first.name), .delivered,
      .ok ⟨first.name, "n1:1", "p1"⟩⟩,
    .spawn (introduceFirst "p3" "2").handler,
    .step 3 ⟨_, .locked (.update (.addPeer first.name "n1:2" "p3")), .delivered, ()⟩,
    .step 2 ⟨_, .unlocked (.clientInstallRule "c:1" ⟨"client:c", readOld⟩), .delivered, .ok⟩,
    .spawn (ServiceRequest.removeRule ⟨"client:c", readFirst⟩).handler,
    .step 4 ⟨_, .unlocked (.getPeerFromName "client:c"), .delivered, .ok ⟨"client:c", "c:1", "p2"⟩⟩,
    .step 4 ⟨_, .unlocked (.clientRemoveRule "c:1" ⟨"client:c", readFirst⟩), .requestLost,
      .unavailable⟩]

theorem reaches_lateRule : ∃ P, Reaches (ServiceThreadStep fun _ => True)
    ⟨({} : System MapStorage), []⟩ lateRule P ∧
      P.state.clients.lookup "c:1" = some (({} : RuleDb).addRule readOld) := by
  refine ⟨_, .cons (.spawn ⟨_, trivial, rfl⟩) (.cons (service_step 0 rfl serves_update)
    (.cons (service_step 0 rfl serves_update) (.cons (.spawn ⟨_, trivial, rfl⟩)
    (.cons (service_step 1 rfl serves_update) (.cons (service_step 1 rfl rfl)
    (.cons (.spawn ⟨_, trivial, rfl⟩) (.cons (service_step 2 rfl ⟨rfl, rfl⟩)
    (.cons (service_step 2 rfl ⟨rfl, rfl⟩) (.cons (.spawn ⟨_, trivial, rfl⟩)
    (.cons (service_step 3 rfl serves_update) (.cons (service_step 2 rfl rfl)
    (.cons (.spawn ⟨_, trivial, rfl⟩) (.cons (service_step 4 rfl ⟨rfl, rfl⟩)
    (.cons (service_step 4 rfl rfl) .nil)))))))))))))), ?_⟩
  rfl

/-- The client reads at the old port. -/
theorem client_rules_exact_lateRule : ∃ P, Reaches (ServiceThreadStep fun _ => True)
    ⟨({} : System MapStorage), []⟩ lateRule P ∧ ∃ d, P.state.clients.lookup "c:1" = some d ∧
      d.getMatchingRule "k" .get = .ok readOld ∧
      addressAfter lateRule first.name = some "n1:2" := by
  obtain ⟨P, hP, hd⟩ := reaches_lateRule
  have hclient : LookedUp (lateRule.take 11) 2 "client:c" "c:1" :=
    ⟨lateRule.take 7, _, _, _, rfl, by decide, rfl⟩
  have hfirst : LookedUp (lateRule.take 11) 2 first.name "n1:1" :=
    ⟨lateRule.take 8, _, _, _, rfl, by decide, rfl⟩
  have hsends : Sends (lateRule.take 11) 2 "c:1" ⟨"client:c", readOld⟩ :=
    .inl ⟨⟨"client:c", readFirst⟩, rfl, hclient, _, rfl, .cons (.get hfirst) .nil⟩
  refine ⟨P, hP, _, hd, ?_, by decide⟩
  refine (client_rules_exact hP hd OperationType.declared_get "k" readOld).mpr
    ⟨lateRule.take 11, 2, _, _, _, lateRule.drop 12, rfl, by decide, rfl, rfl, rfl, hsends, ?_⟩
  decide

end Example

end ServiceThread

/-! ## Clients that no name leads to -/

/-- Where the call goes, or where the new client listens. -/
def UnlockedStep.target {β : Type} : UnlockedStep β → Option String
  | clientInstallRule uri _ | clientRemoveRule uri _ | listen uri => some uri
  | getPeerFromName _ | other => none

def ServiceCall.target {β : Type} : ServiceCall β → Option String
  | locked _ => none
  | unlocked c => c.target

namespace ServiceThread

variable {σ : Type} {s s' : System σ} {uri : String} {d : RuleDb} {es : List ServiceThreadEvent}
  {P : Pool (System σ) (ServiceThread Unit)}

theorem clients_serves {β : Type} {c : ServiceCall β} {delivery : Delivery} {b : β}
    (h : c.Serves delivery s b s') (htarget : c.target ≠ some uri) :
    s'.clients.lookup uri = s.clients.lookup uri := by
  rw [ServiceCall.lookup_serves h]
  cases c with
  | locked c => rfl
  | unlocked c =>
      cases c with
      | getPeerFromName | other => rfl
      | clientInstallRule uri' | clientRemoveRule uri' | listen uri' =>
          have hne : uri' ≠ uri := fun heq => htarget (congrArg some heq)
          simp [ServiceCall.onClient, UnlockedStep.onClient, hne]

/-- An introduction brings its own address only. -/
theorem address_of_mem_introduceUpdates {peer name : String} {request : IntroduceRequest}
    {u : TableUpdate} (hu : u ∈ MasterThread.introduceUpdates peer request)
    (h : u.address name = some uri) : request.address = some uri := by
  cases request with
  | storageManager i =>
      simp only [MasterThread.introduceUpdates, List.mem_cons, List.mem_map] at hu
      obtain rfl | rfl | ⟨key, _, rfl⟩ := hu
      · simp only [TableUpdate.address, Option.ite_none_right_eq_some] at h
        exact h.2
      · cases h
      · cases h
  | storageClient i =>
      cases List.mem_singleton.mp hu
      simp only [TableUpdate.address, Option.ite_none_right_eq_some] at h
      exact h.2
  | notSet => cases hu

theorem address_of_mem_updates {e : MasterRequest} {name : String} {u : TableUpdate}
    (hu : u ∈ e.updates) (h : u.address name = some uri) :
    (ServiceRequest.master (.update e)).address = some uri := by
  cases e with
  | introduce peer request => exact address_of_mem_introduceUpdates hu h
  | storageChange request =>
      obtain ⟨a, _, ha⟩ := List.mem_flatMap.mp hu
      cases a <;> simp only [MasterThread.changeUpdates, List.mem_cons, List.not_mem_nil,
        or_false] at ha
      · rcases ha with rfl | rfl <;> cases h
      · cases ha
        cases h
      · cases ha
        cases h

/-- A request that is not about the address, and has not been told it, makes no call that is. -/
theorem avoids_of_madeFor {β : Type} {c : ServiceCall β} {κ : String → String → Prop}
    {request : ServiceRequest} (h : c.MadeFor κ request) (hrequest : request.address ≠ some uri)
    (hκ : ∀ name, ¬ κ name uri) : (∀ name, c.address name ≠ some uri) ∧ c.target ≠ some uri := by
  cases c with
  | locked c =>
      refine ⟨fun name haddress => hrequest ?_, nofun⟩
      cases c with
      | update u =>
          obtain ⟨e, rfl, hu⟩ | ⟨peer, hostname, port, arrives, rfl, hu⟩ := h
          · exact address_of_mem_updates hu haddress
          · exact address_of_mem_introduceUpdates hu haddress
      | populateFiles | populateUris => cases haddress
  | unlocked c =>
      refine ⟨fun _ => nofun, fun htarget => ?_⟩
      cases c with
      | getPeerFromName | other => cases htarget
      | clientInstallRule uri' sent =>
          cases htarget
          obtain ⟨install, _, htold, _⟩ | rfl := h
          · exact hκ _ htold
          · exact hrequest rfl
      | clientRemoveRule uri' sent =>
          cases htarget
          obtain ⟨_, htold⟩ | rfl := h
          · exact hκ _ htold
          · exact hrequest rfl
      | listen uri' =>
          cases htarget
          obtain ⟨peer, hostname, port, arrives, rfl, rfl⟩ := h
          exact hrequest rfl

/-- The client at `uri` has the rules `d`, and neither the master nor a handler knows the
address. -/
structure Shadowed (uri : String) (d : RuleDb) (es : List ServiceThreadEvent) (s : System σ) :
    Prop where
  lookup : s.clients.lookup uri = some d
  untracked : ∀ name, s.world.master.peerTracker.trackedUri name ≠ some uri
  untold : ∀ i name, ¬ Told es i name uri

theorem told_snoc {e : ServiceThreadEvent} {i : ℕ} {name : String} :
    Told (es ++ [e]) i name uri ↔ Told es i name uri ∨ ∃ p delivery, p.rpcUri = uri ∧
      e = .step i ⟨_, .unlocked (.getPeerFromName name), delivery, .ok p⟩ := by
  constructor
  · rintro ⟨pre, p, delivery, post, hp, hsplit⟩
    rcases List.eq_nil_or_concat post with rfl | ⟨post', last, rfl⟩
    · exact .inr ⟨p, delivery, hp, List.singleton_inj.mp (List.append_inj' hsplit rfl).2⟩
    · rw [List.concat_eq_append, ← List.cons_append, ← List.append_assoc] at hsplit
      exact .inl ⟨pre, p, delivery, post', hp, (List.append_inj' hsplit rfl).1⟩
  · rintro (h | ⟨p, delivery, hp, rfl⟩)
    · exact h.append _
    · exact ⟨es, p, delivery, [], hp, rfl⟩

theorem Shadowed.step {e : ServiceThreadEvent} {Q : Pool (System σ) (ServiceThread Unit)}
    (h : Shadowed uri d es P.state)
    (hrun : Reaches (ServiceThreadStep fun request => request.address ≠ some uri) ⟨s, []⟩ es P)
    (hstep : ServiceThreadStep (fun request => request.address ≠ some uri) P e Q) :
    Shadowed uri d (es ++ [e]) Q.state := by
  cases e with
  | spawn p =>
      cases hstep
      refine ⟨h.lookup, h.untracked, fun i name htold => ?_⟩
      obtain htold | ⟨_, _, _, heq⟩ := told_snoc.mp htold
      · exact h.untold i name htold
      · cases heq
  | step i l =>
      obtain ⟨β, c, delivery, b⟩ := l
      obtain ⟨hserves, request, hrequest, _, hmade⟩ := madeFor_of_step hrun hstep
      obtain ⟨haddress, htarget⟩ := avoids_of_madeFor hmade hrequest (h.untold i)
      refine ⟨(clients_serves hserves htarget).trans h.lookup, fun name htracked => ?_,
        fun j name htold => ?_⟩
      · rw [ServiceCall.trackedUri_serves hserves] at htracked
        rcases Option.or_eq_some_iff.mp htracked with hnew | ⟨_, hold⟩
        · exact haddress name hnew
        · exact h.untracked name hold
      · obtain htold | ⟨p, _, rfl, heq⟩ := told_snoc.mp htold
        · exact h.untold j name htold
        · cases heq
          exact h.untracked name (PeerTracker.trackedUri_of_getPeerFromName hserves.1.symm)

/-- **A client that no name leads to keeps its rules.** No handler is under way, and no peer is
tracked at the address of a client. While no server starts at the address and no rule is sent there
past the master, no rule reaches the client and none is taken away, however the handlers take turns.
A client on the same host that starts at another port brings this about, since it takes over the
name. -/
theorem shadowed_client_keeps_rules
    (hrun : Reaches (ServiceThreadStep fun request => request.address ≠ some uri) ⟨s, []⟩ es P)
    (hd : s.clients.lookup uri = some d)
    (hshadowed : ∀ name, s.world.master.peerTracker.trackedUri name ≠ some uri) :
    P.state.clients.lookup uri = some d ∧
      ∀ name, P.state.world.master.peerTracker.trackedUri name ≠ some uri := by
  have h : Shadowed uri d es P.state := by
    induction hrun with
    | nil => exact ⟨hd, hshadowed, fun i name ⟨_, _, _, _, _, hsplit⟩ => by simp at hsplit⟩
    | snoc hrun hstep ih => exact ih.step hrun hstep
  exact ⟨h.lookup, h.untracked⟩

section Example

/-- A second client on the host of a first one, which has a rule, has taken over the name. -/
def secondClient : System MapStorage :=
  ((({} : System MapStorage).startClient "p2" "c" "1").setRules "c:1"
    (({} : RuleDb).addRule readOld)).startClient "p3" "c" "2"

theorem trackedUri_secondClient (name : String) :
    secondClient.world.master.peerTracker.trackedUri name ≠ some "c:1" := by
  have htracked : secondClient.world.master.peerTracker.trackedUri name =
      if name = "client:c" then some "c:2" else
        if name = "client:c" then some "c:1" else none :=
    (PeerTracker.trackedUri_addPeer _ "client:c" "c:2" "p3" name).trans
      (congrArg _ (PeerTracker.trackedUri_addPeer {} "client:c" "c:1" "p2" name))
  rw [htracked]
  split_ifs <;> simp

/-- A rule for the client reaches the second one. -/
def otherRule : List ServiceThreadEvent :=
  [.spawn (ServiceRequest.installRule ⟨"client:c", { key := "other" }⟩).handler,
    .step 0 ⟨_, .unlocked (.getPeerFromName "client:c"), .delivered, .ok ⟨"client:c", "c:2", "p3"⟩⟩,
    .step 0 ⟨_, .unlocked (.clientInstallRule "c:2" ⟨"client:c", { key := "other" }⟩), .delivered,
      .ok⟩]

theorem shadowed_client_keeps_rules_otherRule : ∃ P,
    Reaches (ServiceThreadStep fun request => request.address ≠ some "c:1") ⟨secondClient, []⟩
      otherRule P ∧
    P.state.clients.lookup "c:1" = some (({} : RuleDb).addRule readOld) := by
  have hrun : ∃ P, Reaches (ServiceThreadStep fun request => request.address ≠ some "c:1")
      ⟨secondClient, []⟩ otherRule P :=
    ⟨_, .cons (.spawn ⟨.installRule _, nofun, rfl⟩) (.cons (service_step 0 rfl ⟨rfl, rfl⟩)
      (.cons (service_step 0 rfl rfl) .nil))⟩
  obtain ⟨P, hP⟩ := hrun
  exact ⟨P, hP, (shadowed_client_keeps_rules hP rfl trackedUri_secondClient).1⟩

end Example

end ServiceThread

end ProgrammableCaching
