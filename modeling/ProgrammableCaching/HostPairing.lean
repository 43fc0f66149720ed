import ProgrammableCaching.ParsableViews
import ProgrammableCaching.ViewRuns

/-! Engines and the ephemeral managers that `ParseGetViewReply` pairs them with. The master joins
hostname and port with a `:` and the scheduler cuts at the first one, so hostnames that contain
a `:` may be taken for the same host. -/

namespace ProgrammableCaching

open UnorderedMap LastWriter Runs StorageMaster

/-- A port as it stands behind the last `:` of an address. -/
abbrev Port := {port : String // ':' ∉ port.toList}

/-- What the scheduler takes for the host of an address with this hostname. -/
def cutHostname (hostname : String) : String := hostPart (hostname ++ ":")

theorem hostPart_rpcUri (hostname port : String) :
    hostPart (rpcUri hostname port) = cutHostname hostname := by
  have hfirst : ∀ rest : List Char, Fields.first ':' (hostname.toList ++ ':' :: rest) =
      Fields.first ':' (hostname.toList ++ [':']) := by
    intro rest
    induction hostname.toList with
    | nil => simp [Fields.first]
    | cons c cs ih =>
        by_cases hc : c = ':'
        · simp [Fields.first, hc]
        · simpa [Fields.first, hc] using ih
  simp [hostPart, cutHostname, rpcUri, hfirst]

/-- A hostname without a `:` is taken as it is. -/
theorem cutHostname_of_notMem {hostname : String} (h : ':' ∉ hostname.toList) :
    cutHostname hostname = hostname := by
  simp [cutHostname, hostPart, Fields.first_join h]

theorem rpcUri_inj (hostname hostname' : String) (port port' : Port) :
    rpcUri hostname port = rpcUri hostname' port' ↔ hostname = hostname' ∧ port = port' := by
  have hlist : ∀ hostname port, (rpcUri hostname port).toList =
      hostname.toList ++ ':' :: port.toList := by
    intro hostname port
    simp [rpcUri]
  rw [← String.toList_inj, hlist, hlist, Fields.join_inj_last port.2 port'.2, String.toList_inj,
    String.toList_inj, Subtype.ext_iff]

/-! ## The master and the scheduler -/

/-- The storage master, and the view of a scheduler that parses its replies. -/
structure Deployment where
  master : StorageMaster := {}
  systemView : ServerlessSystemView

inductive DeploymentEvent
  | introduceManager (peer : String)
      (manager : {i : StorageManagerIntroduce // ':' ∉ i.rpcPort.toList})
  | introduceEngine (hostname : String) (port : Port) (clientUri : String) (maximumTasks : Int)
  | parseView

namespace DeploymentEvent

def manager : DeploymentEvent → Option StorageManagerIntroduce
  | introduceManager _ manager => some manager
  | introduceEngine _ _ _ _ | parseView => none

def engine : DeploymentEvent → Option (String × Port)
  | introduceEngine hostname port _ _ => some (hostname, port)
  | introduceManager _ _ | parseView => none

def request : DeploymentEvent → Option MasterRequest
  | introduceManager peer manager => some (.introduce peer (.storageManager manager))
  | introduceEngine _ _ _ _ | parseView => none

/-- The engine that the event gives a host of the scheduler. -/
def introducedFor (host : String) : DeploymentEvent → Option String
  | introduceEngine hostname port _ _ =>
      if cutHostname hostname = host then some (rpcUri hostname port) else none
  | introduceManager _ _ | parseView => none

end DeploymentEvent

namespace Deployment

/-- The managers that have introduced themselves. -/
def managers (es : List DeploymentEvent) : List StorageManagerIntroduce :=
  es.filterMap DeploymentEvent.manager

/-- The engines that have introduced themselves. -/
def engines (es : List DeploymentEvent) : List (String × Port) :=
  es.filterMap DeploymentEvent.engine

/-- The requests to the master. -/
def requests (es : List DeploymentEvent) : List MasterRequest :=
  es.filterMap DeploymentEvent.request

section Snoc

variable (es : List DeploymentEvent) (e : DeploymentEvent)

theorem mem_managers_snoc (i : StorageManagerIntroduce) :
    i ∈ managers (es ++ [e]) ↔ i ∈ managers es ∨ e.manager = some i := by
  cases h : e.manager <;> simp [managers, h, eq_comm]

theorem mem_engines_snoc (engine : String × Port) :
    engine ∈ engines (es ++ [e]) ↔ engine ∈ engines es ∨ e.engine = some engine := by
  cases h : e.engine <;> simp [engines, h, eq_comm]

theorem requests_snoc : requests (es ++ [e]) = requests es ++ e.request.toList := by
  cases h : e.request <;> simp [requests, h]

end Snoc

inductive Step : Deployment → DeploymentEvent → Deployment → Prop
  | introduceManager (s : Deployment) (peer : String)
      (manager : {i : StorageManagerIntroduce // ':' ∉ i.rpcPort.toList}) :
      Step s (.introduceManager peer manager)
        { s with master := (s.master.introduce peer (.storageManager manager)).2.2 }
  | introduceEngine {s : Deployment} {hostname : String} {port : Port} {clientUri : String}
      {maximumTasks : Int} {systemView : ServerlessSystemView}
      (h : s.systemView.addExecutionEngine (rpcUri hostname port) clientUri maximumTasks =
        .ok systemView) :
      Step s (.introduceEngine hostname port clientUri maximumTasks) { s with systemView }
  | parseView {s : Deployment} {o : ViewOrder} {status : Status} {reply : GetViewReply}
      {systemView : ServerlessSystemView} (ho : s.master.fileView.TraversedBy o)
      (hreply : s.master.getView o = .ok (status, reply))
      (hparse : s.systemView.parseGetViewReply reply = .ok systemView) :
      Step s .parseView { s with systemView }

def start (storage persistant : StorageName) : Deployment where
  systemView := { ephemeral := storage, persistant }

/-- The ephemeral manager that an engine knows is a manager of exactly its hostname. -/
def Paired (es : List DeploymentEvent) (s : Deployment) : Prop :=
  ∀ hostname port, (hostname, port) ∈ engines es →
    (s.systemView.stateOf (rpcUri hostname port)).ephemeralName ≠ "" →
      ∃ i ∈ managers es, i.rpcHostname = hostname ∧
        generateName (.storageManager i) =
          (s.systemView.stateOf (rpcUri hostname port)).ephemeralName

/-- Wherever the events lead, the engines are paired. -/
def AlwaysPaired (storage persistant : StorageName) (es : List DeploymentEvent) : Prop :=
  ∀ s, Reaches Step (start storage persistant) es s → Paired es s

/-- A reply is parsed only when the ephemeral managers that share the cut hostname of an engine,
the latest with it, have the hostname of the engine. -/
def HostsApart (storage : StorageName) (es : List DeploymentEvent) : DeploymentEvent → Prop
  | .parseView => ∀ (hostname : String) (port : Port),
      after (DeploymentEvent.introducedFor (cutHostname hostname)) "" es = rpcUri hostname port →
        ∀ i ∈ managers es, i.storageName = storage →
          cutHostname i.rpcHostname = cutHostname hostname → i.rpcHostname = hostname
  | .introduceManager _ _ | .introduceEngine _ _ _ _ => True

/-- What the state has kept of the events. -/
structure After (storage : StorageName) (es : List DeploymentEvent) (s : Deployment) : Prop where
  master : s.master = run {} (requests es)
  ephemeral : s.systemView.ephemeral = storage
  engineOf : ∀ host, s.systemView.engineOf host = after (DeploymentEvent.introducedFor host) "" es

section Runs

variable {storage persistant : StorageName} {es : List DeploymentEvent} {e : DeploymentEvent}
  {s s' : Deployment} {hostname : String} {port : Port} {i : StorageManagerIntroduce}

theorem After.step (h : After storage es s) (hstep : Step s e s') :
    After storage (es ++ [e]) s' := by
  cases hstep with
  | introduceManager peer manager =>
      constructor
      · rw [requests_snoc]
        simp only [DeploymentEvent.request, Option.toList_some, run_snoc, ← h.master]
        rfl
      · exact h.ephemeral
      · intro host
        simpa [DeploymentEvent.introducedFor] using h.engineOf host
  | introduceEngine hadd =>
      obtain rfl := ServerlessSystemView.addExecutionEngine_eq hadd
      constructor
      · simpa [requests_snoc, DeploymentEvent.request] using h.master
      · exact h.ephemeral
      · intro host
        rw [after_append, ← h.engineOf, ServerlessSystemView.engineOf, entry_insert,
          hostPart_rpcUri]
        split_ifs with heq
        · simp [DeploymentEvent.introducedFor, heq]
        · simp [DeploymentEvent.introducedFor, Ne.symm heq, ServerlessSystemView.engineOf]
  | parseView ho hreply hparse =>
      have hparsed := ServerlessSystemView.parsed_of_ok hparse
      constructor
      · simpa [requests_snoc, DeploymentEvent.request] using h.master
      · exact hparsed.ephemeral.trans h.ephemeral
      · intro host
        simpa [DeploymentEvent.introducedFor, hparsed.engineOf] using h.engineOf host

theorem after_of_reaches
    (hrun : Reaches Step (start storage persistant) es s) :
    After storage es s := by
  induction hrun with
  | nil => exact ⟨rfl, rfl, fun host => by simp [start, ServerlessSystemView.engineOf, entry]⟩
  | snoc _ hstep ih => exact ih.step hstep

/-! ## What the master knows of the managers -/

/-- The view of the master has the managers that have introduced themselves. -/
theorem mem_managerViews_iff (es : List DeploymentEvent) (name : String) :
    name ∈ (run {} (requests es)).fileView.managerViews ↔
      ∃ i ∈ managers es, generateName (.storageManager i) = name := by
  rw [mem_managerViews_run]
  simp only [managers, requests, List.mem_filterMap]
  constructor
  · rintro ⟨_, ⟨e, he, hrequest⟩, hname⟩
    cases e with
    | introduceManager peer manager =>
        cases hrequest
        simp only [MasterRequest.introducedManager, MasterRequest.changedNames,
          MasterRequest.actions, List.flatMap_nil, List.not_mem_nil, or_false,
          Option.some.injEq] at hname
        exact ⟨manager, ⟨_, he, rfl⟩, hname⟩
    | introduceEngine => cases hrequest
    | parseView => cases hrequest
  · rintro ⟨i, ⟨e, he, hmanager⟩, rfl⟩
    cases e with
    | introduceManager peer manager =>
        cases hmanager
        exact ⟨_, ⟨_, he, rfl⟩, .inl rfl⟩
    | introduceEngine => cases hmanager
    | parseView => cases hmanager

/-- The address of a manager has its cut hostname, whichever port it came with last. -/
theorem hostPart_uriOf (h : i ∈ managers es) :
    hostPart ((run {} (requests es)).peerTracker.uriOf
      (generateName (.storageManager i))) = cutHostname i.rpcHostname := by
  induction es using List.reverseRecOn with
  | nil => simp [managers] at h
  | append_singleton es e ih =>
      rw [mem_managers_snoc] at h
      cases e with
      | introduceEngine hostname port clientUri maximumTasks =>
          simpa [requests_snoc, DeploymentEvent.request] using ih (h.resolve_right (by rintro ⟨⟩))
      | parseView =>
          simpa [requests_snoc, DeploymentEvent.request] using ih (h.resolve_right (by rintro ⟨⟩))
      | introduceManager peer manager =>
          simp only [requests_snoc, DeploymentEvent.request, Option.toList_some, run_snoc,
            uriOf_handle, MasterRequest.address]
          split_ifs with hname
          · -- the same name, so the same hostname
            have hhost := ((generateName_manager_inj _ _).mp hname).2.2
            simp [IntroduceRequest.address, hostPart_rpcUri, hhost]
          · refine ih (h.resolve_right ?_)
            rintro ⟨⟩
            exact hname rfl

/-! ## What a reply pairs -/

/-- An engine that is the latest for a host of the scheduler has that cut hostname. -/
theorem introduced_of_latest {host : String}
    (h : after (DeploymentEvent.introducedFor host) "" es = rpcUri hostname port) :
    cutHostname hostname = host ∧ (hostname, port) ∈ engines es := by
  have hne : rpcUri hostname port ≠ "" := by simp [rpcUri]
  obtain ⟨pre, e, post, rfl, he, _⟩ := (after_eq_iff_of_ne hne).mp h
  cases e with
  | introduceManager => cases he
  | parseView => cases he
  | introduceEngine hostname' port' clientUri maximumTasks =>
      simp only [DeploymentEvent.introducedFor, Option.ite_none_right_eq_some,
        Option.some.injEq, rpcUri_inj] at he
      obtain ⟨hhost, rfl, rfl⟩ := he
      exact ⟨hhost, by simp [engines, DeploymentEvent.engine]⟩

variable {o : ViewOrder} {status : Status} {reply : GetViewReply} {systemView : ServerlessSystemView}

/-- The entries of a reply that is parsed are about the managers, with their cut hostnames. -/
theorem mem_reply (h : After storage es s) (ho : s.master.fileView.TraversedBy o)
    (hreply : s.master.getView o = .ok (status, reply))
    (hparse : s.systemView.parseGetViewReply reply = .ok systemView) {view : ManagerView}
    (hview : view ∈ reply.view) : ∃ i ∈ managers es, generateName (.storageManager i) = view.name ∧
      hostPart view.uri = cutHostname i.rpcHostname ∧
      (NamesStorage view.name storage ↔ i.storageName = storage) := by
  have hnames := ((ServerlessSystemView.parseGetViewReply_ok_iff _ _).mp ⟨_, hparse⟩).1 view hview
  obtain ⟨_, rfl⟩ := getView_ok ho hreply
  obtain ⟨hname, huri, _⟩ := mem_viewReply ho hview
  rw [h.master] at hname huri
  obtain ⟨i, hi, hgenerated⟩ := (mem_managerViews_iff es _).mp hname
  rw [← hgenerated] at huri hnames ⊢
  refine ⟨i, hi, rfl, by rw [huri, hostPart_uriOf hi], ?_⟩
  exact namesStorage_generateName_iff ((namesStorage_manager_iff i).mp hnames.2)

theorem ephemeralName_parse {v v' : ServerlessSystemView}
    (hparse : v.parseGetViewReply reply = .ok v') (engine : String) :
    (v'.stateOf engine).ephemeralName =
      after (ManagerView.setsEphemeral v.ephemeral v.engineOf engine)
        (v.stateOf engine).ephemeralName reply.view := by
  rw [(ServerlessSystemView.parsed_of_ok hparse).state engine]
  rfl

theorem paired_parseView (h : After storage es s) (hpaired : Paired es s)
    (hapart : HostsApart storage es .parseView) (hstep : Step s .parseView s') :
    Paired (es ++ [.parseView]) s' := by
  intro hostname port hengine hephemeral
  have hengine : (hostname, port) ∈ engines es := by
    simpa [mem_engines_snoc, DeploymentEvent.engine] using hengine
  have hmanagers : ∀ i, i ∈ managers (es ++ [.parseView]) ↔ i ∈ managers es := by
    simp [mem_managers_snoc, DeploymentEvent.manager]
  simp only [hmanagers]
  cases hstep with
  | @parseView o status reply systemView ho hreply hparse =>
      have hname := ephemeralName_parse hparse (rpcUri hostname port)
      rcases after_cases (ManagerView.setsEphemeral s.systemView.ephemeral s.systemView.engineOf
          (rpcUri hostname port)) (s.systemView.stateOf (rpcUri hostname port)).ephemeralName
          reply.view with ⟨hsame, _⟩ | ⟨pre, view, post, hsplit, hsets, _⟩
      · -- the reply has no manager for the engine
        rw [hsame] at hname
        rw [hname] at hephemeral ⊢
        exact hpaired hostname port hengine hephemeral
      · have hview : view ∈ reply.view := by simp [hsplit]
        obtain ⟨i, hi, hgenerated, hhost, hstorage⟩ := mem_reply h ho hreply hparse hview
        rw [← hname, ManagerView.setsEphemeral_eq_some, h.ephemeral, h.engineOf, hhost] at hsets
        obtain ⟨⟨hnames, hlatest⟩, hset⟩ := hsets
        have hcut := (introduced_of_latest hlatest).1
        refine ⟨i, hi, ?_, hgenerated.trans hset⟩
        exact hapart hostname port (hcut ▸ hlatest) i hi (hstorage.mp hnames) hcut.symm

/-- Whether a reply can be parsed does not depend on the order of the managers. -/
theorem parses_of_parses {m : StorageMaster} {o' : ViewOrder} {v v' : ServerlessSystemView}
    (ho : m.fileView.TraversedBy o) (ho' : m.fileView.TraversedBy o')
    (h : v.parseGetViewReply (m.viewReply o) = .ok v') :
    ∃ v'', v.parseGetViewReply (m.viewReply o') = .ok v'' := by
  have hviews := ((ServerlessSystemView.parseGetViewReply_ok_iff _ _).mp ⟨_, h⟩).1
  refine (ServerlessSystemView.parseGetViewReply_ok_iff _ _).mpr ⟨fun view hview => ?_, ?_⟩
  · obtain ⟨hname, huri, _⟩ := mem_viewReply ho' hview
    rw [← ho.1.2, ← names_viewReply ho, List.mem_map] at hname
    obtain ⟨view', hview', hsame⟩ := hname
    rw [huri, ← hsame, ← (mem_viewReply ho hview').2.1]
    exact hviews view' hview'
  · exact fun client hclient => by cases hclient

/-- Any ephemeral manager with the cut hostname of an engine may be the one that it learns of. -/
theorem exists_parseView (h : After storage es s) (ho : s.master.fileView.TraversedBy o)
    (hreply : s.master.getView o = .ok (status, reply))
    (hparse : s.systemView.parseGetViewReply reply = .ok systemView)
    (hlatest : after (DeploymentEvent.introducedFor (cutHostname hostname)) "" es =
      rpcUri hostname port) (hi : i ∈ managers es) (hstorage : i.storageName = storage)
    (hcut : cutHostname i.rpcHostname = cutHostname hostname) :
    ∃ s', Step s .parseView s' ∧
      (s'.systemView.stateOf (rpcUri hostname port)).ephemeralName =
        generateName (.storageManager i) := by
  obtain ⟨htracked, rfl⟩ := getView_ok ho hreply
  have hmem : generateName (.storageManager i) ∈ s.master.fileView.managerViews := by
    rw [h.master]
    exact (mem_managerViews_iff es _).mpr ⟨i, hi, rfl⟩
  obtain ⟨files, hfiles⟩ := Finmap.mem_iff.mp hmem
  -- the traversal that comes to this manager last
  let last : ViewOrder := ⟨o.managers.erase (generateName (.storageManager i)) ++
    [generateName (.storageManager i)], o.files⟩
  have hlast : s.master.fileView.TraversedBy last := ⟨ho.1.visit_last hmem, ho.2⟩
  obtain ⟨v', hv'⟩ := parses_of_parses ho hlast hparse
  refine ⟨_, .parseView hlast (getView_of_viewsTracked htracked hlast) hv', ?_⟩
  rw [ephemeralName_parse hv']
  simp only [viewReply, last, traverse_concat hfiles, List.map_append, List.map_cons, List.map_nil]
  have hnames : ∃ storage, NamesStorage (generateName (.storageManager i)) storage := by
    have hshown := (ho.1.2 _).mpr hmem
    rw [← names_viewReply ho, List.mem_map] at hshown
    obtain ⟨view, hview, hname⟩ := hshown
    rw [← hname]
    exact (((ServerlessSystemView.parseGetViewReply_ok_iff _ _).mp ⟨_, hparse⟩).1 view hview).2
  refine after_of_last (if_pos ⟨?_, ?_⟩) (by simp)
  · rw [h.ephemeral]
    exact (namesStorage_generateName_iff ((namesStorage_manager_iff i).mp hnames)).mpr hstorage
  · rw [h.engineOf, h.master, hostPart_uriOf hi, hcut, hlatest]

/-- The events apart from the parsing of a reply keep the engines paired. -/
theorem Paired.step (hpaired : Paired es s) (hstep : Step s e s') (he : e ≠ .parseView) :
    Paired (es ++ [e]) s' := by
  intro hostname port hengine hephemeral
  rw [mem_engines_snoc] at hengine
  cases hstep with
  | introduceManager peer manager =>
      obtain ⟨i, hi, hpair⟩ :=
        hpaired hostname port (hengine.resolve_right (by rintro ⟨⟩)) hephemeral
      exact ⟨i, (mem_managers_snoc _ _ _).mpr (.inl hi), hpair⟩
  | parseView => exact absurd rfl he
  | @introduceEngine hostname' port' clientUri maximumTasks systemView hadd =>
      obtain rfl := ServerlessSystemView.addExecutionEngine_eq hadd
      simp only [ServerlessSystemView.stateOf, entry_insert] at hephemeral ⊢
      by_cases heq : rpcUri hostname port = rpcUri hostname' port'
      · -- an engine that has just introduced itself knows no manager
        simp [heq] at hephemeral
      · have hbefore : (hostname, port) ∈ engines es := by
          refine hengine.resolve_right ?_
          rintro ⟨⟩
          exact heq rfl
        rw [if_neg heq] at hephemeral ⊢
        obtain ⟨i, hi, hpair⟩ := hpaired hostname port hbefore hephemeral
        exact ⟨i, (mem_managers_snoc _ _ _).mpr (.inl hi), hpair⟩

theorem alwaysPaired_snoc_iff (hok : ∃ s, Reaches Step (start storage persistant) (es ++ [e]) s)
    (h : AlwaysPaired storage persistant es) :
    AlwaysPaired storage persistant (es ++ [e]) ↔ HostsApart storage es e := by
  by_cases he : e = .parseView
  · subst he
    constructor
    · intro hpaired hostname port hlatest i hi hstorage hcut
      obtain ⟨_, hok⟩ := hok
      obtain ⟨s, hrun, hstep⟩ := Reaches.snoc_iff.mp hok
      cases hstep with
      | parseView ho hreply hparse =>
          obtain ⟨s', hstep', hname⟩ := exists_parseView (after_of_reaches hrun) ho hreply hparse
            hlatest hi hstorage hcut
          obtain ⟨_, hengine⟩ := introduced_of_latest hlatest
          obtain ⟨j, _, hhost, hj⟩ := hpaired s' (hrun.snoc hstep') hostname port
            ((mem_engines_snoc _ _ _).mpr (.inl hengine)) (by simp [hname, generateName])
          rw [hname, generateName_manager_inj] at hj
          rw [← hj.2.2, hhost]
    · intro hapart s' hrun
      obtain ⟨s, hrun, hstep⟩ := Reaches.snoc_iff.mp hrun
      exact paired_parseView (after_of_reaches hrun) (h s hrun) hapart hstep
  · have hapart : HostsApart storage es e := by
      cases e with
      | introduceManager => trivial
      | introduceEngine => trivial
      | parseView => exact absurd rfl he
    refine iff_of_true (fun s' hrun => ?_) hapart
    obtain ⟨s, hrun, hstep⟩ := Reaches.snoc_iff.mp hrun
    exact (h s hrun).step hstep he

/-- **Engines and peers of one host.** Along a run every engine is paired with a manager of
exactly its hostname, in whatever order the master lists the managers, exactly when no reply is
parsed while ephemeral managers of another hostname share the cut hostname of an engine. -/
theorem alwaysPaired_throughout_iff (hrun : Reaches Step (start storage persistant) es s) :
    Throughout (AlwaysPaired storage persistant) es ↔ EveryStep (HostsApart storage) es := by
  refine throughout_iff_everyStep ?_ (fun es e hok h => alwaysPaired_snoc_iff hok h)
    hrun.throughout
  intro s _ hostname port hengine
  simp [engines] at hengine

end Runs

/-- Where no hostname has a `:`, the scheduler takes every hostname as it is. -/
theorem everyStep_of_plainHostnames {storage : StorageName} {es : List DeploymentEvent}
    (hmanagers : ∀ i ∈ managers es, ':' ∉ i.rpcHostname.toList)
    (hengines : ∀ engine ∈ engines es, ':' ∉ engine.1.toList) :
    EveryStep (HostsApart storage) es := by
  induction es using List.reverseRecOn with
  | nil => exact everyStep_nil
  | append_singleton es e ih =>
      have hbefore : ∀ i ∈ managers es, ':' ∉ i.rpcHostname.toList :=
        fun i hi => hmanagers i ((mem_managers_snoc _ _ _).mpr (.inl hi))
      have hbefore' : ∀ engine ∈ engines es, ':' ∉ engine.1.toList :=
        fun engine hengine => hengines engine ((mem_engines_snoc _ _ _).mpr (.inl hengine))
      refine everyStep_snoc.mpr ⟨ih hbefore hbefore', ?_⟩
      cases e with
      | introduceManager => trivial
      | introduceEngine => trivial
      | parseView =>
          intro hostname port hlatest i hi _ hcut
          have hhostname := hbefore' _ (introduced_of_latest hlatest).2
          rwa [cutHostname_of_notMem (hbefore i hi), cutHostname_of_notMem hhostname] at hcut

section Example

/-- A manager with one hostname, an engine with another one, and a reply that is parsed. -/
def managerAndEngine (hostname hostname' : String) : List DeploymentEvent :=
  [.introduceManager "p" ⟨{ rpcHostname := hostname, rpcPort := "1" },
      (by decide : ':' ∉ "1".toList)⟩,
    .introduceEngine hostname' ⟨"3", by decide⟩ "c:2" 1, .parseView]

def managerOrder (hostname : String) : ViewOrder :=
  ⟨["manager:EPHEMERAL:MANAGED:" ++ hostname], fun _ => []⟩

theorem alwaysPaired_throughout_iff_sameHost :
    Throughout (AlwaysPaired .ephemeral .fakePersistant) (managerAndEngine "h" "h") ↔
      EveryStep (HostsApart .ephemeral) (managerAndEngine "h" "h") := by
  refine alwaysPaired_throughout_iff (.cons (.introduceManager _ _ _)
    (.cons (.introduceEngine rfl) (.cons (.parseView (o := managerOrder "h") ?_ rfl rfl) .nil)))
  decide

/-- The engine on `[::2]` is paired with the manager of `[::1]`. -/
theorem bracketed_hosts_paired : ∃ s,
    Reaches Step (start .ephemeral .fakePersistant) (managerAndEngine "[::1]" "[::2]") s ∧
      (s.systemView.stateOf "[::2]:3").ephemeralName = "manager:EPHEMERAL:MANAGED:[::1]" ∧
      ¬ Paired (managerAndEngine "[::1]" "[::2]") s := by
  refine ⟨_, .cons (.introduceManager _ _ _) (.cons (.introduceEngine rfl)
    (.cons (.parseView (o := managerOrder "[::1]") ?_ rfl rfl) .nil)), rfl, ?_⟩
  · decide
  · intro hpaired
    obtain ⟨i, hi, hhost, _⟩ := hpaired "[::2]" ⟨"3", by decide⟩ (by decide) (by decide)
    obtain rfl := List.mem_singleton.mp hi
    exact absurd hhost (by decide)

end Example

end Deployment

end ProgrammableCaching
