import ProgrammableCaching.Faults

/-! What the requests of a client make of failures: a handler that comes back with
`OK`, or a report to the master, although a storage operation has failed. -/

namespace ProgrammableCaching

open Replicas Pools Traces Runs

/-- A request to a storage client. -/
inductive ClientRequest
  | get (request : GetRequest)
  | put (request : PutRequest)
  deriving DecidableEq, Repr

/-- The calls, made one after the other from the `n`th on, are all spared by their
faults and find the keys that they read. -/
def AllServed (faults : ℕ → Fault) : ℕ → Stores String String String → List ManagerCall → Prop
  | _, _, [] => True
  | n, st, c :: cs =>
      ((faults n).Spares c ∧ c.Fed st) ∧ AllServed faults (n + 1) (run "" st c.ops) cs

theorem allServed_append {faults : ℕ → Fault} {n : ℕ} {st : Stores String String String}
    {cs cs' : List ManagerCall} :
    AllServed faults n st (cs ++ cs') ↔ AllServed faults n st cs ∧
      AllServed faults (n + cs.length) (run "" st (cs.flatMap ManagerCall.ops)) cs' := by
  induction cs generalizing n st with
  | nil => simp [AllServed]
  | cons c cs ih =>
      simp only [List.cons_append, AllServed, ih, List.length_cons, List.flatMap_cons, run_append,
        Nat.add_right_comm n 1, and_assoc]
      rw [Nat.add_assoc]

namespace FaultyWorld

variable {σ : Type} [StorageInterface σ] [LawfulStorage σ] {w w' w'' : FaultyWorld σ}
  {cs : List (Σ β, ClientCall β)}

/-- The calls led from `w` to `w'`. -/
structure PerformsAll (w : FaultyWorld σ) (cs : List (Σ β, ClientCall β)) (w' : FaultyWorld σ) :
    Prop where
  faults : w'.faults = w.faults
  reports : w'.reports = w.reports ++ reportedChanges cs
  running : ∀ uri, w'.world.Running uri ↔ w.world.Running uri
  called : ∀ c ∈ managerCalls cs, w.world.Running c.uri
  log : ∃ entries, w'.log = w.log ++ entries ∧ entries.map Prod.fst = managerCalls cs ∧
    ((∀ e ∈ entries, e.2 = true) ↔
      AllServed w.faults w.log.length w.world.value (managerCalls cs))
  value : AllServed w.faults w.log.length w.world.value (managerCalls cs) →
    w'.world.value = run "" w.world.value ((managerCalls cs).flatMap ManagerCall.ops)

theorem PerformsAll.refl (w : FaultyWorld σ) : w.PerformsAll [] w where
  faults := rfl
  reports := by simp [reportedChanges]
  running _ := Iff.rfl
  called := by simp [managerCalls]
  log := ⟨[], by simp [managerCalls, AllServed]⟩
  value _ := rfl

theorem PerformsAll.fault_eq (h : w.PerformsAll cs w') :
    w'.fault = w.faults (w.log.length + (managerCalls cs).length) := by
  obtain ⟨entries, hlog, hcalls, _⟩ := h.log
  rw [fault, h.faults, hlog, ← hcalls, List.length_append, List.length_map]

/-- After calls that were all served. -/
theorem PerformsAll.served_iff (h : w.PerformsAll cs w')
    (hall : AllServed w.faults w.log.length w.world.value (managerCalls cs)) (c : ManagerCall) :
    w'.Served c ↔ AllServed w.faults (w.log.length + (managerCalls cs).length)
      (run "" w.world.value ((managerCalls cs).flatMap ManagerCall.ops)) [c] := by
  simp only [Served, AllServed, h.fault_eq, h.value hall, and_true]

/-- A call to a manager that is added at the end. -/
theorem PerformsAll.snoc (h : w.PerformsAll cs w') {call : Σ β, ClientCall β} {c : ManagerCall}
    (hc : call.2.managerCall = some c) (hrun : w'.world.Running c.uri)
    (hstep : w'.Performs c w'') : w.PerformsAll (cs ++ [call]) w'' := by
  have hcalls : managerCalls (cs ++ [call]) = managerCalls cs ++ [c] := by
    rw [managerCalls_append]
    simp [managerCalls, hc]
  have hserved : AllServed w.faults w.log.length w.world.value (managerCalls (cs ++ [call])) ↔
      AllServed w.faults w.log.length w.world.value (managerCalls cs) ∧ w'.Served c := by
    rw [hcalls, allServed_append]
    exact and_congr_right fun hall => (h.served_iff hall c).symm
  refine ⟨hstep.faults.trans h.faults, ?_, fun uri => (hstep.running uri).trans (h.running uri),
    ?_, ?_, ?_⟩
  · rw [hstep.reports, h.reports, reportedChanges_append]
    simp [reportedChanges, ClientCall.changes_of_managerCall hc]
  · rw [hcalls, List.forall_mem_append, List.forall_mem_singleton]
    exact ⟨h.called, (h.running _).mp hrun⟩
  · obtain ⟨entries, hlog, hentries, hall⟩ := h.log
    obtain ⟨succeeded, hlast, hsucceeded⟩ := hstep.log
    refine ⟨entries ++ [(c, succeeded)], ?_, ?_, ?_⟩
    · rw [hlast, hlog, List.append_assoc]
    · rw [List.map_append, hentries, hcalls]
      rfl
    · rw [hserved, ← hall, ← hsucceeded, List.forall_mem_append, List.forall_mem_singleton]
  · intro hall
    obtain ⟨hpre, hlast⟩ := hserved.mp hall
    rw [hstep.value hlast, h.value hpre, hcalls, List.flatMap_append, run_append]
    simp

/-- A report that is added at the end. -/
theorem PerformsAll.snoc_report (h : w.PerformsAll cs w') {request : StorageChangeRequest}
    {b : Status} (hcall : handle (.storageChange request) w' = .ok (b, w'')) :
    w.PerformsAll (cs ++ [⟨Status, .storageChange request⟩]) w'' := by
  have hcalls : managerCalls (cs ++ [⟨Status, .storageChange request⟩]) = managerCalls cs := by
    rw [managerCalls_append]
    simp [managerCalls, ClientCall.managerCall]
  cases hcall
  refine ⟨h.faults, ?_, h.running, ?_, ?_, ?_⟩
  · rw [reportedChanges_append, ← List.append_assoc, ← h.reports]
    simp [reportedChanges, ClientCall.changes]
  · rw [hcalls]
    exact h.called
  · rw [hcalls]
    exact h.log
  · rw [hcalls]
    exact h.value

/-- A call that comes back. -/
theorem PerformsAll.snoc_returns (h : w.PerformsAll cs w') {call : Σ β, ClientCall β}
    (hcall : Returns handle w' call w'') : w.PerformsAll (cs ++ [call]) w'' := by
  obtain ⟨β, call⟩ := call
  obtain ⟨b, hb⟩ := hcall
  cases hc : call.managerCall with
  | none =>
      cases call <;> first | exact h.snoc_report hb | cases hc
  | some c =>
      by_cases hrun : w'.world.Running c.uri
      · obtain ⟨b', w₁, hb', hstep⟩ := handle_performs hc hrun
        cases hb'.symm.trans hb
        exact h.snoc hc hrun hstep
      · cases (handle_undelivered hc hrun).symm.trans hb

theorem performsAll_of_reaches (h : Reaches (Returns handle) w cs w') : w.PerformsAll cs w' := by
  induction h with
  | nil => exact .refl w
  | snoc _ hcall ih => exact ih.snoc_returns hcall

/-- Calls to running managers come back; otherwise the first one to a manager that is
not there does not. -/
theorem reaches_or_undelivered (w : FaultyWorld σ) (cs : List (Σ β, ClientCall β)) :
    (∃ w', Reaches (Returns handle) w cs w') ∨
      (∃ c ∈ managerCalls cs, ¬ w.world.Running c.uri) ∧
        ∃ pre call post w', cs = pre ++ call :: post ∧ Reaches (Returns handle) w pre w' ∧
          ∃ e, handle call.2 w' = .error e := by
  rcases reaches_or_stops cs w with hreach | ⟨pre, call, post, w', e, rfl, hreach, he⟩
  · exact .inl hreach
  · refine .inr ⟨?_, pre, call, post, w', rfl, hreach, e, he⟩
    obtain ⟨β, call⟩ := call
    cases hc : call.managerCall with
    | none =>
        cases call <;> first | cases he | cases hc
    | some c =>
        refine ⟨c, by simp [managerCalls, hc], fun hrun => ?_⟩
        obtain ⟨b, w₁, hb, _⟩ := handle_performs hc
          (((performsAll_of_reaches hreach).running c.uri).mpr hrun)
        cases hb.symm.trans he

/-- The call was made, and whenever it was made its storage operations succeeded. -/
def Backs (w : FaultyWorld σ) (c : ManagerCall) : Prop :=
  (c, true) ∈ w.log ∧ (c, false) ∉ w.log

end FaultyWorld

namespace StorageClient

open FaultyWorld

variable {σ : Type} [StorageInterface σ] [LawfulStorage σ] {d : RuleDb}

/-! ## What a request should not hide -/

/-- When `Get` comes back with `OK` all storage operations have succeeded and its reply
is what the manager of the last action stores; and whatever it reports has succeeded. -/
structure GetFaithful (d : RuleDb) (request : GetRequest)
    (out : Except Failure (Status × GetReply) × FaultyWorld σ) : Prop where
  succeeded : ∀ reply, out.1 = .ok (.ok, reply) → ∀ entry ∈ out.2.log, entry.2 = true
  stored : ∀ reply, out.1 = .ok (.ok, reply) → ∀ r last, FindsRule d request.key .get r →
    r.action.getLast? = some (.get last) →
      out.2.world.value last.mgr.uri request.key = some reply.value
  reported : ∀ a ∈ out.2.reports, ∃ c, a.managerCall ⟨request.key, ""⟩ = some c ∧ out.2.Backs c

/-- When `Put` comes back with `OK` all storage operations have succeeded, and the
manager of every put action has received the value; and whatever it reports has
succeeded. -/
structure PutFaithful (d : RuleDb) (request : PutRequest)
    (out : Except Failure Status × FaultyWorld σ) : Prop where
  succeeded : out.1 = .ok .ok → ∀ entry ∈ out.2.log, entry.2 = true
  received : out.1 = .ok .ok → ∀ r a, FindsRule d request.key .put r → .put a ∈ r.action →
    (.put a.mgr.uri request, true) ∈ out.2.log
  reported : ∀ a ∈ out.2.reports, ∃ c, a.managerCall request = some c ∧ out.2.Backs c

/-- The request, made alone and under these faults, hides no failure. -/
def NoSilentFailure (d : RuleDb) (world : World σ) (faults : ℕ → Fault) : ClientRequest → Prop
  | .get request => GetFaithful d request (outcome handle (get d request) { world, faults })
  | .put request => PutFaithful d request (outcome handle (put d request) { world, faults })

/-! ## When nothing can be hidden -/

/-- The requests to managers of the loop of `Get`. -/
def getLoopCalls (r : Rule) : List ManagerCall :=
  managerCalls (r.action.dropLast.flatMap Action.getCalls)

/-- The requests to managers of the loop of `Put`. -/
def putLoopCalls (request : PutRequest) (r : Rule) : List ManagerCall :=
  managerCalls (r.action.flatMap (Action.putCalls request))

/-- The get that `Get` sends to the manager at `uri` at its end is served after the calls
of its loop, and its reply arrives, unless the value is empty. -/
def FinalGetSpared (request : GetRequest) (r : Rule) (world : World σ) (faults : ℕ → Fault)
    (uri : String) : Prop :=
  AllServed faults 0 world.value (getLoopCalls r ++ [.get uri request]) ∧
    ((faults (getLoopCalls r).length).delivery = .delivered ∨
      run "" world.value ((getLoopCalls r).flatMap ManagerCall.ops) uri request.key = some "")

/-- If the loop of `Get` comes to its end, all its calls are served; and so is then the
last call, when the last action is a get of the key at a running manager. -/
def GetSpared (d : RuleDb) (request : GetRequest) (world : World σ) (faults : ℕ → Fault) : Prop :=
  ∀ r, FindsRule d request.key .get r → (∀ a ∈ r.action.dropLast, a.passesGet) →
    (∀ c ∈ getLoopCalls r, world.Running c.uri) →
      AllServed faults 0 world.value (getLoopCalls r) ∧
        ∀ last, r.action.getLast? = some (.get last) → last.key = request.key →
          world.Running last.mgr.uri → FinalGetSpared request r world faults last.mgr.uri

/-- If the loop of `Put` comes to its end, all its calls are served. -/
def PutSpared (d : RuleDb) (request : PutRequest) (world : World σ) (faults : ℕ → Fault) : Prop :=
  ∀ r, FindsRule d request.key .put r → (∀ a ∈ r.action, a.passesPut request.key) →
    (∀ c ∈ putLoopCalls request r, world.Running c.uri) →
      AllServed faults 0 world.value (putLoopCalls request r)

def Spared (d : RuleDb) (world : World σ) (faults : ℕ → Fault) : ClientRequest → Prop
  | .get request => GetSpared d request world faults
  | .put request => PutSpared d request world faults

/-! ## Put -/

/-- The start of a request. -/
abbrev fresh (world : World σ) (faults : ℕ → Fault) : FaultyWorld σ := { world, faults }

section

variable {world : World σ} {faults : ℕ → Fault} {w' : FaultyWorld σ} {α : Type}
  {cs : List (Σ β, ClientCall β)}

/-- A script without reports either makes all its calls, or it ends without a report
at a call to a manager that is not there. -/
theorem outcome_script_cases (world : World σ) (faults : ℕ → Fault)
    (hquiet : reportedChanges cs = []) (p : ClientCode α) :
    (∃ w', (fresh world faults).PerformsAll cs w' ∧
        outcome handle (script cs p) (fresh world faults) = outcome handle p w') ∨
      (∃ c ∈ managerCalls cs, ¬ world.Running c.uri) ∧
        ∃ e w', outcome handle (script cs p) (fresh world faults) = (.error e, w') ∧
          w'.reports = [] := by
  rcases reaches_or_undelivered (fresh world faults) cs with
    ⟨w', hreach⟩ | ⟨hrun, pre, call, post, w', rfl, hreach, e, he⟩
  · exact .inl ⟨w', performsAll_of_reaches hreach, outcome_script hreach p⟩
  · refine .inr ⟨hrun, e, w', outcome_script_error hreach he p, ?_⟩
    rw [reportedChanges_append] at hquiet
    rw [(performsAll_of_reaches hreach).reports, (List.append_eq_nil_iff.mp hquiet).1]
    rfl

/-- A script without reports that ends in a failure reports nothing. -/
theorem outcome_script_fail (world : World σ) (faults : ℕ → Fault)
    (hquiet : reportedChanges cs = []) (e : Failure) :
    ∃ e' w', outcome handle (script cs (.fail e : ClientCode α)) (fresh world faults) =
      (.error e', w') ∧ w'.reports = [] := by
  rcases outcome_script_cases world faults hquiet (.fail e : ClientCode α) with
    ⟨w', hperf, hout⟩ | ⟨_, e', w', hout, hreports⟩
  · refine ⟨e, w', hout, ?_⟩
    rw [hperf.reports, hquiet]
    rfl
  · exact ⟨e', w', hout, hreports⟩

theorem entries_of_performsAll (h : (fresh world faults).PerformsAll cs w') :
    w'.log.map Prod.fst = managerCalls cs ∧
      ((∀ entry ∈ w'.log, entry.2 = true) ↔
        AllServed faults 0 world.value (managerCalls cs)) := by
  obtain ⟨entries, hlog, hcalls, hall⟩ := h.log
  rw [hlog, List.nil_append]
  exact ⟨hcalls, hall⟩

omit [StorageInterface σ] [LawfulStorage σ] in
/-- A call of the log, when everything in the log has succeeded. -/
theorem backs_of_succeeded {c : ManagerCall} (hall : ∀ entry ∈ w'.log, entry.2 = true)
    (hc : c ∈ w'.log.map Prod.fst) : (c, true) ∈ w'.log ∧ w'.Backs c := by
  obtain ⟨⟨c', succeeded⟩, hentry, rfl⟩ := List.mem_map.mp hc
  obtain rfl : succeeded = true := hall _ hentry
  exact ⟨hentry, hentry, fun hfailed => Bool.false_ne_true (hall _ hfailed)⟩

end

theorem findsRule_unique {key : String} {op : OperationType} {r r' : Rule}
    (h : FindsRule d key op r) (h' : FindsRule d key op r') : r' = r :=
  Option.some.inj (h'.symm.trans h)

theorem lookup_of_no_rule {key : String} {op : OperationType}
    (h : ¬ ∃ r, FindsRule d key op r) : d.ruleDb.lookup (RuleDb.getRuleKey key op) = none :=
  Option.eq_none_iff_forall_ne_some.mpr fun r hr => h ⟨r, hr⟩

omit [StorageInterface σ] [LawfulStorage σ] in
theorem putFaithful_of_error {request : PutRequest} {e : Failure} {w' : FaultyWorld σ}
    (h : w'.reports = []) : PutFaithful d request (.error e, w') :=
  ⟨nofun, nofun, by simp [h]⟩

/-- Without a rule the first assertion of `Put` fails. -/
theorem put_of_no_rule {request : PutRequest} (h : ¬ ∃ r, FindsRule d request.key .put r) :
    (put d request : ClientCode Status) = .fail .assertion := by
  simp only [put, RuleDb.hasMatchingRule, lookup_of_no_rule h]
  rfl

omit [LawfulStorage σ] in
/-- The report at the end of `Put`. -/
theorem outcome_putReport (req : List Action) (w : FaultyWorld σ) :
    ∃ w', outcome handle (putReport req) w = (.ok .ok, w') ∧ w'.log = w.log ∧
      w'.reports = w.reports ++ req :=
  ⟨_, rfl, rfl, rfl⟩

/-- Behind its loop `Put` reports everything and comes back with `OK`. -/
theorem putFaithful_report_iff {request : PutRequest} {world : World σ} {faults : ℕ → Fault}
    {r : Rule} {w' : FaultyWorld σ} (hrule : FindsRule d request.key .put r)
    (hperf : (fresh world faults).PerformsAll (r.action.flatMap (Action.putCalls request)) w') :
    PutFaithful d request (outcome handle (putReport (r.action.flatMap Action.putChanges)) w') ↔
      AllServed faults 0 world.value (putLoopCalls request r) := by
  obtain ⟨w₁, hout, hlog, hreports⟩ :=
    outcome_putReport (r.action.flatMap Action.putChanges) w'
  obtain ⟨hcalls, hserved⟩ := entries_of_performsAll hperf
  rw [hout, putLoopCalls, ← hserved, ← hlog]
  constructor
  · exact fun h => h.succeeded rfl
  · intro hall
    have hbacks : ∀ c ∈ putLoopCalls request r, (c, true) ∈ w₁.log ∧ w₁.Backs c :=
      fun c hc => backs_of_succeeded hall (by rwa [hlog, hcalls])
    refine ⟨fun _ => hall, fun _ r' a hr' ha => ?_, fun a ha => ?_⟩
    · obtain rfl := findsRule_unique hrule hr'
      have hput : .put a ∈ r'.action.flatMap Action.putChanges :=
        List.mem_flatMap.mpr ⟨_, ha, List.mem_singleton_self _⟩
      obtain ⟨c, hc, hsent⟩ := Action.exists_call_of_putChanges request hput
      cases hc
      exact (hbacks _ hsent).1
    · rw [hreports, hperf.reports, Action.reportedChanges_putCalls] at ha
      obtain ⟨c, hc, hsent⟩ := Action.exists_call_of_putChanges request ha
      exact ⟨c, hc, (hbacks c hsent).2⟩

theorem putFaithful_iff (request : PutRequest) (world : World σ) (faults : ℕ → Fault) :
    PutFaithful d request (outcome handle (put d request) (fresh world faults)) ↔
      PutSpared d request world faults := by
  by_cases hex : ∃ r, FindsRule d request.key .put r
  · obtain ⟨r, hrule⟩ := hex
    by_cases hpass : ∀ a ∈ r.action, a.passesPut request.key
    · rw [put_script hrule hpass]
      rcases outcome_script_cases world faults
        (Action.reportedChanges_putCalls request r.action)
        (putReport (r.action.flatMap Action.putChanges)) with
        ⟨w', hperf, hout⟩ | ⟨⟨c, hc, hrun⟩, e, w', hout, hreports⟩
      · rw [hout, putFaithful_report_iff hrule hperf]
        refine ⟨fun h r' hr' _ _ => ?_, fun h => h r hrule hpass hperf.called⟩
        obtain rfl := findsRule_unique hrule hr'
        exact h
      · rw [hout]
        refine iff_of_true (putFaithful_of_error hreports) fun r' hr' _ hrunning => ?_
        obtain rfl := findsRule_unique hrule hr'
        exact absurd (hrunning c hc) hrun
    · obtain ⟨pre, a, post, _, _, _, hput⟩ := put_script_fail hrule hpass
      have hquiet : reportedChanges (pre.flatMap (Action.putCalls request) ++
          a.putCallsBefore) = [] := by
        rw [reportedChanges_append, Action.reportedChanges_putCalls]
        cases a <;> rfl
      obtain ⟨e, w', hout, hreports⟩ := outcome_script_fail world faults hquiet .assertion
      rw [hput, hout]
      refine iff_of_true (putFaithful_of_error hreports) fun r' hr' hpass' => ?_
      obtain rfl := findsRule_unique hrule hr'
      exact absurd hpass' hpass
  · rw [put_of_no_rule hex]
    exact iff_of_true (putFaithful_of_error rfl) fun r hr => absurd ⟨r, hr⟩ hex

/-! ## Get -/

theorem getFaithful_of_error {request : GetRequest} {e : Failure} {w' : FaultyWorld σ}
    (h : w'.reports = []) : GetFaithful d request (.error e, w') :=
  ⟨nofun, nofun, by simp [h]⟩

theorem get_of_no_rule {request : GetRequest} (h : ¬ ∃ r, FindsRule d request.key .get r) :
    (get d request : ClientCode (Status × GetReply)) = .fail .assertion := by
  simp only [get, RuleDb.hasMatchingRule, lookup_of_no_rule h]
  rfl

section

variable {request : GetRequest} {world : World σ} {faults : ℕ → Fault} {r : Rule}
  {cs : List (Σ β, ClientCall β)} {w' w'' : FaultyWorld σ}

/-- When the reports after the loop tell the truth, all calls of the loop were
served. -/
theorem allServed_of_reported (request : GetRequest)
    (hpass : ∀ a ∈ r.action.dropLast, a.passesGet)
    (hperf : (fresh world faults).PerformsAll cs w') (hcalls : managerCalls cs = getLoopCalls r)
    (hlog : w'.log ⊆ w''.log)
    (h : ∀ a ∈ Action.reported r.action.dropLast,
      ∃ c, a.managerCall ⟨request.key, ""⟩ = some c ∧ w''.Backs c) :
    AllServed faults 0 world.value (getLoopCalls r) := by
  obtain ⟨hentries, hserved⟩ := entries_of_performsAll hperf
  rw [← hcalls, ← hserved]
  rintro ⟨c, succeeded⟩ hentry
  have hc : c ∈ getLoopCalls r := by
    rw [← hcalls, ← hentries]
    exact List.mem_map_of_mem hentry
  obtain ⟨a, ha, hac⟩ := (Action.mem_managerCalls_getCalls ⟨request.key, ""⟩ hpass).mp hc
  obtain ⟨c', hac', _, hfailed⟩ := h a ha
  cases hac.symm.trans hac'
  cases succeeded with
  | true => rfl
  | false => exact absurd (hlog hentry) hfailed

omit [StorageInterface σ] [LawfulStorage σ] in
/-- When everything in the log has succeeded, the reports tell the truth. -/
theorem reported_of_succeeded (hpass : ∀ a ∈ r.action.dropLast, a.passesGet)
    (hall : ∀ entry ∈ w''.log, entry.2 = true)
    (hcalls : getLoopCalls r ⊆ w''.log.map Prod.fst) :
    ∀ a ∈ Action.reported r.action.dropLast,
      ∃ c, a.managerCall ⟨request.key, ""⟩ = some c ∧ w''.Backs c := by
  intro a ha
  have hsent : ∃ c, a.managerCall ⟨request.key, ""⟩ = some c := by
    obtain ⟨hmem, hset⟩ := List.mem_filter.mp ha
    have hpassed := hpass a hmem
    cases a with
    | get a => cases hpassed
    | put a => cases hpassed
    | notSet => simp at hset
    | copyFrom a => exact ⟨_, rfl⟩
    | remove a => exact ⟨_, rfl⟩
  obtain ⟨c, hc⟩ := hsent
  refine ⟨c, hc, (backs_of_succeeded hall (hcalls ?_)).2⟩
  exact (Action.mem_managerCalls_getCalls ⟨request.key, ""⟩ hpass).mpr ⟨a, ha, hc⟩

/-- A `Get` that fails behind its report. -/
theorem getFaithful_error_iff (hpass : ∀ a ∈ r.action.dropLast, a.passesGet)
    (hperf : (fresh world faults).PerformsAll cs w') (hcalls : managerCalls cs = getLoopCalls r)
    (hreports : reportedChanges cs = Action.reported r.action.dropLast) (e : Failure) :
    GetFaithful d request (.error e, w') ↔ AllServed faults 0 world.value (getLoopCalls r) := by
  have hreports : w'.reports = Action.reported r.action.dropLast := by
    rw [hperf.reports, hreports]
    rfl
  constructor
  · intro h
    refine allServed_of_reported request hpass hperf hcalls (List.Subset.refl w'.log) ?_
    exact hreports ▸ h.reported
  · intro hserved
    obtain ⟨hentries, hall⟩ := entries_of_performsAll hperf
    refine ⟨nofun, nofun, ?_⟩
    rw [hreports]
    refine reported_of_succeeded hpass (hall.mpr (by rwa [hcalls])) ?_
    rw [hentries, hcalls]
    exact List.Subset.refl _

omit [StorageInterface σ] [LawfulStorage σ] in
theorem getFinish_eq {last : GetAction} (hlast : r.action.getLast? = some (.get last)) :
    getFinish ⟨last.key⟩ r =
      .call (.managerGet last.mgr.uri ⟨last.key⟩) fun b => .done (.ok, b.2) := by
  simp only [getFinish, hlast, decide_true]
  rfl

/-- What a get that is served replies, and what its manager then stores. -/
theorem reply_of_allServed {uri : String} {b : Status × GetReply}
    (hperf : (fresh world faults).PerformsAll cs w') (hcalls : managerCalls cs = getLoopCalls r)
    (hb : handle (.managerGet uri request) w' = .ok (b, w''))
    (hstep : w'.Performs (.get uri request) w'')
    (hall : AllServed faults 0 world.value (getLoopCalls r ++ [.get uri request])) :
    ∃ v, w''.world.value uri request.key = some v ∧
      run "" world.value ((getLoopCalls r).flatMap ManagerCall.ops) uri request.key = some v ∧
      b.2.value = if (faults (getLoopCalls r).length).delivery = .delivered then v else "" := by
  rw [← hcalls] at hall ⊢
  obtain ⟨hloop, hget⟩ := allServed_append.mp hall
  have hserved : w'.Served (.get uri request) := (hperf.served_iff hloop _).mpr hget
  obtain ⟨v, hv, hreply⟩ := managerGet_reply hb hserved
  have hfault : w'.fault = faults (managerCalls cs).length := by
    rw [hperf.fault_eq]
    exact congrArg faults (Nat.zero_add _)
  have hvalue : w''.world.value = w'.world.value := hstep.value hserved
  have hrun : w'.world.value = run "" world.value ((managerCalls cs).flatMap ManagerCall.ops) :=
    hperf.value hloop
  exact ⟨v, by rw [hvalue, hv], by rw [← hrun, hv], by rw [hreply, hfault]⟩

/-- A `Get` whose last action is a get of its key at a running manager. -/
theorem getFaithful_final_iff {last : GetAction} (hrule : FindsRule d last.key .get r)
    (hpass : ∀ a ∈ r.action.dropLast, a.passesGet)
    (hperf : (fresh world faults).PerformsAll cs w') (hcalls : managerCalls cs = getLoopCalls r)
    (hreports : reportedChanges cs = Action.reported r.action.dropLast)
    (hlast : r.action.getLast? = some (.get last)) (hrun : world.Running last.mgr.uri) :
    GetFaithful d ⟨last.key⟩ (outcome handle (getFinish ⟨last.key⟩ r) w') ↔
      FinalGetSpared ⟨last.key⟩ r world faults last.mgr.uri := by
  have hrun' : w'.world.Running last.mgr.uri := (hperf.running _).mpr hrun
  obtain ⟨b, w'', hb, hstep⟩ := handle_performs
    (rfl : (ClientCall.managerGet last.mgr.uri ⟨last.key⟩).managerCall = _) hrun'
  have hperf' : (fresh world faults).PerformsAll
      (cs ++ [⟨_, .managerGet last.mgr.uri ⟨last.key⟩⟩]) w'' := hperf.snoc rfl hrun' hstep
  obtain ⟨hentries, hserved⟩ := entries_of_performsAll hperf'
  rw [managerCalls_append, hcalls] at hentries hserved
  have hreports' : w''.reports = Action.reported r.action.dropLast := by
    rw [hstep.reports, hperf.reports, hreports]
    rfl
  rw [getFinish_eq hlast, outcome_call_ok hb, outcome_done]
  constructor
  · intro h
    have hall := hserved.mp (h.succeeded b.2 rfl)
    obtain ⟨v, hv, hstored, hreply⟩ := reply_of_allServed hperf hcalls hb hstep hall
    refine ⟨hall, ?_⟩
    by_cases hd : (faults (getLoopCalls r).length).delivery = .delivered
    · exact .inl hd
    · right
      rw [if_neg hd] at hreply
      have hsame := hv.symm.trans (h.stored b.2 rfl r last hrule hlast)
      rw [hstored, hsame, hreply]
  · rintro ⟨hall, harrives⟩
    obtain ⟨v, hv, hstored, hreply⟩ := reply_of_allServed hperf hcalls hb hstep hall
    have hsucceeded : ∀ entry ∈ w''.log, entry.2 = true := hserved.mpr hall
    refine ⟨fun _ _ => hsucceeded, ?_, ?_⟩
    · intro reply hreply' r' last' hrule' hlast'
      obtain rfl := findsRule_unique hrule hrule'
      cases hlast.symm.trans hlast'
      cases hreply'
      show w''.world.value last.mgr.uri last.key = some b.2.value
      rw [hv, hreply]
      split
      · rfl
      · rename_i hd
        rw [← hstored, harrives.resolve_left hd]
    · rw [hreports']
      refine reported_of_succeeded hpass hsucceeded ?_
      rw [hentries]
      exact List.subset_append_left _ _

omit [LawfulStorage σ] in
/-- Without a get of the key at a running manager as its last action `Get` fails. -/
theorem outcome_getFinish_error (h : ¬ ∃ last, r.action.getLast? = some (.get last) ∧
    last.key = request.key ∧ w'.world.Running last.mgr.uri) :
    ∃ e, outcome handle (getFinish request r) w' = (.error e, w') := by
  unfold getFinish
  cases hlast : r.action.getLast? with
  | none => exact ⟨_, rfl⟩
  | some a =>
      cases a with
      | copyFrom a => exact ⟨_, rfl⟩
      | remove a => exact ⟨_, rfl⟩
      | put a => exact ⟨_, rfl⟩
      | notSet => exact ⟨_, rfl⟩
      | get last =>
          by_cases hkey : last.key = request.key
          · have hrun : ¬ w'.world.Running last.mgr.uri := fun hrun => h ⟨last, hlast, hkey, hrun⟩
            simp only [hkey, decide_true]
            exact ⟨_, outcome_call_error (handle_undelivered rfl hrun)⟩
          · simp only [hkey, decide_false]
            exact ⟨_, rfl⟩

/-- Behind its report `Get` fails, or it comes back with the reply to the last
action. -/
theorem getFaithful_finish_iff (hrule : FindsRule d request.key .get r)
    (hpass : ∀ a ∈ r.action.dropLast, a.passesGet)
    (hperf : (fresh world faults).PerformsAll cs w') (hcalls : managerCalls cs = getLoopCalls r)
    (hreports : reportedChanges cs = Action.reported r.action.dropLast) :
    GetFaithful d request (outcome handle (getFinish request r) w') ↔
      AllServed faults 0 world.value (getLoopCalls r) ∧
        ∀ last, r.action.getLast? = some (.get last) → last.key = request.key →
          world.Running last.mgr.uri → FinalGetSpared request r world faults last.mgr.uri := by
  by_cases hfinal : ∃ last, r.action.getLast? = some (.get last) ∧ last.key = request.key ∧
      w'.world.Running last.mgr.uri
  · obtain ⟨last, hlast, hkey, hrun⟩ := hfinal
    obtain rfl : request = ⟨last.key⟩ := by
      cases request
      exact congrArg _ hkey.symm
    rw [getFaithful_final_iff hrule hpass hperf hcalls hreports hlast ((hperf.running _).mp hrun)]
    constructor
    · intro h
      refine ⟨(allServed_append.mp h.1).1, fun last' hlast' _ _ => ?_⟩
      cases hlast.symm.trans hlast'
      exact h
    · exact fun h => h.2 last hlast rfl ((hperf.running _).mp hrun)
  · obtain ⟨e, hout⟩ := outcome_getFinish_error hfinal
    rw [hout, getFaithful_error_iff hpass hperf hcalls hreports]
    refine (and_iff_left fun last hlast hkey hrun => ?_).symm
    exact absurd ⟨last, hlast, hkey, (hperf.running _).mpr hrun⟩ hfinal

end

/-- The report of `Get`. -/
theorem outcome_getReport {world : World σ} {faults : ℕ → Fault} {cs : List (Σ β, ClientCall β)}
    {w' : FaultyWorld σ} (hperf : (fresh world faults).PerformsAll cs w') (request : GetRequest)
    (r : Rule) (req : List Action) :
    ∃ w₁, outcome handle (getReport request r req) w' = outcome handle (getFinish request r) w₁ ∧
      (fresh world faults).PerformsAll
        (cs ++ [⟨Status, .storageChange { storageChange := req }⟩]) w₁ :=
  ⟨_, rfl, hperf.snoc_report rfl⟩

theorem getFaithful_iff (request : GetRequest) (world : World σ) (faults : ℕ → Fault) :
    GetFaithful d request (outcome handle (get d request) (fresh world faults)) ↔
      GetSpared d request world faults := by
  by_cases hex : ∃ r, FindsRule d request.key .get r
  · obtain ⟨r, hrule⟩ := hex
    by_cases hpass : ∀ a ∈ r.action.dropLast, a.passesGet
    · rw [get_script hrule hpass]
      rcases outcome_script_cases world faults (Action.reportedChanges_getCalls r.action.dropLast)
        (getReport request r (Action.reported r.action.dropLast)) with
        ⟨w', hperf, hout⟩ | ⟨⟨c, hc, hrun⟩, e, w', hout, hreports⟩
      · obtain ⟨w₁, hreport, hperf₁⟩ :=
          outcome_getReport hperf request r (Action.reported r.action.dropLast)
        have hcalls : managerCalls (r.action.dropLast.flatMap Action.getCalls ++
            [⟨Status, .storageChange { storageChange := Action.reported r.action.dropLast }⟩]) =
              getLoopCalls r := by
          rw [managerCalls_append]
          exact List.append_nil _
        rw [hout, hreport, getFaithful_finish_iff hrule hpass hperf₁ hcalls
          (by rw [reportedChanges_append, Action.reportedChanges_getCalls,
            reportedChanges_report, List.nil_append])]
        refine ⟨fun h r' hr' _ _ => ?_, fun h => h r hrule hpass hperf.called⟩
        obtain rfl := findsRule_unique hrule hr'
        exact h
      · rw [hout]
        refine iff_of_true (getFaithful_of_error hreports) fun r' hr' _ hrunning => ?_
        obtain rfl := findsRule_unique hrule hr'
        exact absurd (hrunning c hc) hrun
    · obtain ⟨actions, hget⟩ := get_script_fail hrule hpass
      obtain ⟨e, w', hout, hreports⟩ := outcome_script_fail world faults
        (Action.reportedChanges_getCalls actions) .assertion
      rw [hget, hout]
      refine iff_of_true (getFaithful_of_error hreports) fun r' hr' hpass' => ?_
      obtain rfl := findsRule_unique hrule hr'
      exact absurd hpass' hpass
  · rw [get_of_no_rule hex]
    exact iff_of_true (getFaithful_of_error rfl) fun r hr => absurd ⟨r, hr⟩ hex

/-! ## Any request -/

/-- **Silent failures.** A request hides no failure exactly when its loop does not come
to its end, or its calls are spared by all faults and find the keys that they read. -/
theorem noSilentFailure_iff (d : RuleDb) (world : World σ) (faults : ℕ → Fault)
    (request : ClientRequest) :
    NoSilentFailure d world faults request ↔ Spared d world faults request := by
  cases request with
  | get request => exact getFaithful_iff request world faults
  | put request => exact putFaithful_iff request world faults

section Example

open World.TwoManagers

/-- Put the value at the first manager. -/
def putFirst : Rule := { opType := .put, key := "k", action := [.put ⟨"k", first⟩] }

/-- The medium of the first manager cannot be written. -/
def readOnly : ℕ → Fault := fun _ => { writeError := true }

/-- The put fails at the medium, and still `Put` comes back with `OK` and reports it. -/
theorem put_error_dropped :
    (∃ w', outcome handle (put (({} : RuleDb).addRule putFirst) ⟨"k", "new"⟩)
        (fresh twoManagers readOnly) = (.ok .ok, w') ∧
      w'.log = [(.put "n1:1" ⟨"k", "new"⟩, false)] ∧ w'.reports = [.put ⟨"k", first⟩] ∧
      w'.world.value "n1:1" "k" = some "v") ∧
      ¬ NoSilentFailure (({} : RuleDb).addRule putFirst) twoManagers readOnly
        (.put ⟨"k", "new"⟩) := by
  have hout : ∃ w', outcome handle (put (({} : RuleDb).addRule putFirst) ⟨"k", "new"⟩)
        (fresh twoManagers readOnly) = (.ok .ok, w') ∧
      w'.log = [(.put "n1:1" ⟨"k", "new"⟩, false)] ∧ w'.reports = [.put ⟨"k", first⟩] ∧
      w'.world.value "n1:1" "k" = some "v" := by
    rw [put_eq (r := putFirst) (by decide)]
    exact ⟨_, rfl, rfl, rfl, rfl⟩
  refine ⟨hout, fun h => ?_⟩
  obtain ⟨w', hw', hlog, _⟩ := hout
  have hfaithful : PutFaithful (({} : RuleDb).addRule putFirst) ⟨"k", "new"⟩ _ := h
  rw [hw'] at hfaithful
  exact Bool.false_ne_true
    (hfaithful.succeeded rfl (.put "n1:1" ⟨"k", "new"⟩, false) (by simp [hlog]))

end Example

end StorageClient

end ProgrammableCaching
