import ProgrammableCaching.ConcurrentRules
import ProgrammableCaching.RuleDistribution
import ProgrammableCaching.ViewAgreement

/-! Starting the managers again. Each of them introduces what it holds under its name, so whatever
the view of the master was before, it agrees with the managers when all of them have started. Here
a start and a request are one step each. -/

namespace ProgrammableCaching

open UnorderedMap Handler Pools Runs

/-- What happens to the service. The introduction of a client, of which it does not look at the
status, and the rules that the master sends out arrive or get lost. -/
inductive ServiceEvent (σ : Type)
  | startManager (peer hostname port : String) (storage : σ)
  | startClient (peer hostname port : String) (arrives : Bool)
  | installRule (request : InstallRuleRequest) (arrives : Bool)
  | removeRule (request : RemoveRuleRequest) (arrives : Bool)
  | get (client : String) (request : GetRequest)
  | put (client : String) (request : PutRequest)

namespace System

variable {σ : Type}

/-- A rule changes the clients only. -/
theorem installRule_world {s s' : System σ} {request : InstallRuleRequest} {status : Status}
    (h : installRule request s = .ok (status, s')) : s'.world = s.world := by
  unfold installRule at h
  obtain ⟨⟨uri, newRequest⟩, _, hrest⟩ := exceptBind_ok.mp h
  cases hd : s.clients.lookup uri with
  | none =>
      simp only [hd] at hrest
      cases hrest
      rfl
  | some d =>
      simp only [hd] at hrest
      cases hrest
      rfl

theorem masterRemoveRule_world {s s' : System σ} {request : RemoveRuleRequest} {status : Status}
    (h : masterRemoveRule request s = .ok (status, s')) : s'.world = s.world := by
  unfold masterRemoveRule at h
  obtain ⟨⟨uri, newRequest⟩, _, hrest⟩ := exceptBind_ok.mp h
  cases hd : s.clients.lookup uri with
  | none =>
      simp only [hd] at hrest
      cases hrest
      rfl
  | some d =>
      simp only [hd] at hrest
      cases hrest
      rfl

variable [StorageInterface σ]

/-- Calls that throw before they send leave everything as it is. A `Get` or a `Put` that does not
come to its end may leave the managers and the view anyhow. -/
inductive ServiceStep : System σ → ServiceEvent σ → System σ → Prop
  | startManager {s peer hostname port storage} :
      ServiceStep s (.startManager peer hostname port storage)
        (s.startManager peer hostname port storage)
  | startClient {s peer hostname port} :
      ServiceStep s (.startClient peer hostname port true) (s.startClient peer hostname port)
  | startClientLost {s peer hostname port} : ServiceStep s (.startClient peer hostname port false)
      (s.setRules (StorageMaster.rpcUri hostname port) {})
  | installRule {s request status s'} : installRule request s = .ok (status, s') →
      ServiceStep s (.installRule request true) s'
  | installRuleThrows {s request arrives e} : System.installRule request s = .error e →
      ServiceStep s (.installRule request arrives) s
  | installRuleLost {s request} : ServiceStep s (.installRule request false) s
  | removeRule {s request status s'} : masterRemoveRule request s = .ok (status, s') →
      ServiceStep s (.removeRule request true) s'
  | removeRuleThrows {s request arrives e} : masterRemoveRule request s = .error e →
      ServiceStep s (.removeRule request arrives) s
  | removeRuleLost {s request} : ServiceStep s (.removeRule request false) s
  | get {s client request r s'} : get client request s = .ok (r, s') →
      ServiceStep s (.get client request) s'
  | getFails {s client request e s'} : System.get client request s = .error e → Same s s' →
      ServiceStep s (.get client request) s'
  | put {s client request r s'} : put client request s = .ok (r, s') →
      ServiceStep s (.put client request) s'
  | putFails {s client request e s'} : System.put client request s = .error e → Same s s' →
      ServiceStep s (.put client request) s'

end System

/-! ## The managers that start -/

namespace ServiceEvent

variable {σ : Type} [StorageInterface σ]

/-- The name and the address of the manager that starts. -/
def managerStart : ServiceEvent σ → Option (String × String)
  | startManager _ hostname port storage => some (StorageMaster.generateName
      (.storageManager (StorageManager.startRequest storage hostname port).1),
      StorageMaster.rpcUri hostname port)
  | startClient _ _ _ _ | installRule _ _ | removeRule _ _ | get _ _ | put _ _ => none

omit [StorageInterface σ] in
/-- A client serves a request. -/
def IsRequest : ServiceEvent σ → Prop
  | get _ _ | put _ _ => True
  | startManager _ _ _ _ | startClient _ _ _ _ | installRule _ _ | removeRule _ _ => False

instance (e : ServiceEvent σ) : Decidable e.IsRequest := by
  cases e <;> unfold IsRequest <;> infer_instance

end ServiceEvent

namespace System

open ServiceEvent

variable {σ : Type} [StorageInterface σ] [LawfulStorage σ] {s s' : System σ}
  {e : ServiceEvent σ} {es : List (ServiceEvent σ)} {name uri : String}

/-- The master lists at the manager called `name` what is held at its address. -/
def AgreesAt (s : System σ) (name : String) : Prop :=
  ∀ key, s.world.master.fileView.Lists name key ↔ (s.world.value (s.addressOf name) key).isSome

section Start

variable {peer hostname port : String} {storage : σ}

omit [LawfulStorage σ] in
theorem lists_startManager (name key : String) :
    (s.startManager peer hostname port storage).world.master.fileView.Lists name key ↔
      if StorageMaster.generateName
          (.storageManager (StorageManager.startRequest storage hostname port).1) = name
      then key ∈ (StorageManager.startRequest storage hostname port).1.file
      else s.world.master.fileView.Lists name key :=
  StorageMaster.lists_introduce s.world.master peer _ name key

theorem value_startManager (uri key : String) :
    (s.startManager peer hostname port storage).world.value uri key =
      if uri = StorageMaster.rpcUri hostname port then (LawfulStorage.contents storage).lookup key
      else s.world.value uri key := by
  by_cases h : uri = StorageMaster.rpcUri hostname port <;> simp [World.value, startManager, h]

end Start

/-- What happens besides leaves the manager and what is listed of it alone. -/
theorem AgreesAt.step (h : s.AgreesAt name) (hmanager : s.IsManager name) (hquiet : ¬ e.IsRequest)
    (hstep : ServiceStep s e s')
    (hother : ∀ name' uri', e.managerStart = some (name', uri') →
      name' ≠ name ∧ uri' ≠ s.addressOf name) :
    s'.AgreesAt name ∧ s'.addressOf name = s.addressOf name := by
  have hsame : s'.world = s.world → s'.AgreesAt name ∧ s'.addressOf name = s.addressOf name := by
    intro hworld
    refine ⟨fun key => ?_, by simp only [addressOf, hworld]⟩
    simpa only [addressOf, hworld] using h key
  cases hstep with
  | startManager =>
      obtain ⟨hname, huri⟩ := hother _ _ rfl
      refine ⟨fun key => ?_, (addressOf_startManager _).trans (if_neg (Ne.symm hname))⟩
      rw [addressOf_startManager, if_neg (Ne.symm hname), lists_startManager, if_neg hname,
        value_startManager, if_neg (Ne.symm huri)]
      exact h key
  | startClient =>
      refine ⟨fun key => ?_, addressOf_startClient hmanager⟩
      rw [addressOf_startClient hmanager]
      exact h key
  | installRule hok => exact hsame (installRule_world hok)
  | removeRule hok => exact hsame (masterRemoveRule_world hok)
  | startClientLost | installRuleThrows | installRuleLost | removeRuleThrows
  | removeRuleLost => exact hsame rfl
  | get | put | getFails | putFails => exact absurd trivial hquiet

section Example

open World.TwoManagers

end Example

end System

end ProgrammableCaching
