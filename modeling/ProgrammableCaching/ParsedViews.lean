import ProgrammableCaching.SchedulableEngines

/-! What `ParseGetViewReply` makes of every entry of its tables: each is decided by the last
entry of the reply that is about it. So a reply that is parsed a second time changes nothing. -/

namespace ProgrammableCaching

open UnorderedMap LastWriter

instance (name : String) (storage : StorageName) : Decidable (NamesStorage name storage) :=
  decidable_of_iff ((nameToStorageName name).toOption.bind StorageName.parse = some storage) (by
    rw [← nameToStorageName_parses_iff]
    cases nameToStorageName name <;> simp [Except.toOption])

/-- Every uri has a `:` and every manager is named after a storage. -/
structure GetViewReply.WellFormed (reply : GetViewReply) : Prop where
  views : ∀ view ∈ reply.view, ':' ∈ view.uri.toList ∧ ∃ storage, NamesStorage view.name storage
  clients : ∀ client ∈ reply.client, ':' ∈ client.uri.toList

/-- The hosts that the reply is about. -/
def GetViewReply.hosts (reply : GetViewReply) : List String :=
  reply.view.map (fun view => hostPart view.uri) ++
    reply.client.map fun client => hostPart client.uri

/-! ## What one entry of a reply sets -/

namespace ManagerView

/-- The keys of the manager called `name`. -/
def setsKeys (name : String) (view : ManagerView) : Option (Option (List String)) :=
  if view.name = name then some (some view.key) else none

/-- The manager that has the file: one of any storage but the ephemeral one. -/
def setsHolder (storage : StorageName) (file : String) (view : ManagerView) :
    Option (Option String) :=
  if ¬ NamesStorage view.name storage ∧ file ∈ view.key then some (some view.name) else none

/-- The ephemeral manager of an engine, when `engineOf` gives the engine of each host. -/
def setsEphemeral (storage : StorageName) (engineOf : String → String) (engine : String)
    (view : ManagerView) : Option String :=
  if NamesStorage view.name storage ∧ engineOf (hostPart view.uri) = engine
  then some view.name else none

variable {view : ManagerView} {storage : StorageName}

theorem setsEphemeral_eq_some {engineOf : String → String} {engine name : String} :
    view.setsEphemeral storage engineOf engine = some name ↔
      (NamesStorage view.name storage ∧ engineOf (hostPart view.uri) = engine) ∧
        view.name = name := by
  simp [setsEphemeral]

theorem setsHolder_of_names (h : NamesStorage view.name storage) (storage' : StorageName)
    (file : String) : view.setsHolder storage' file =
      if storage ≠ storage' ∧ file ∈ view.key then some (some view.name) else none := by
  have hiff : NamesStorage view.name storage' ↔ storage = storage' :=
    ⟨h.unique, fun heq => heq ▸ h⟩
  simp only [setsHolder, hiff, ne_eq]

theorem setsEphemeral_of_names (h : NamesStorage view.name storage) (storage' : StorageName)
    (engineOf : String → String) (engine : String) :
    view.setsEphemeral storage' engineOf engine =
      if storage = storage' ∧ engineOf (hostPart view.uri) = engine
      then some view.name else none := by
  have hiff : NamesStorage view.name storage' ↔ storage = storage' :=
    ⟨h.unique, fun heq => heq ▸ h⟩
  simp only [setsEphemeral, hiff]

end ManagerView

/-- The client of an engine. -/
def ClientView.setsClient (engineOf : String → String) (engine : String) (client : ClientView) :
    Option String :=
  if engineOf (hostPart client.uri) = engine then some client.name else none

attribute [ext] ServerlessSystemView

namespace ServerlessSystemView

/-- `hostname_to_engine[host]`, the empty name for an unknown host. -/
def engineOf (v : ServerlessSystemView) (host : String) : String := entry v.hostnameToEngine host ""

/-- The reply sets something for the engine. -/
def Touches (v : ServerlessSystemView) (reply : GetViewReply) (engine : String) : Prop :=
  (∃ view ∈ reply.view, view.setsEphemeral v.ephemeral v.engineOf engine ≠ none) ∨
    ∃ client ∈ reply.client, client.setsClient v.engineOf engine ≠ none

/-- The state of an engine behind the reply. -/
def shown (v : ServerlessSystemView) (reply : GetViewReply) (engine : String) : EngineState :=
  { v.stateOf engine with
    ephemeralName := after (ManagerView.setsEphemeral v.ephemeral v.engineOf engine)
      (v.stateOf engine).ephemeralName reply.view
    clientName := after (ClientView.setsClient v.engineOf engine)
      (v.stateOf engine).clientName reply.client }

/-- `v'` is `v` with the reply parsed into its tables. -/
structure Parsed (v : ServerlessSystemView) (reply : GetViewReply) (v' : ServerlessSystemView) :
    Prop where
  ephemeral : v'.ephemeral = v.ephemeral
  persistant : v'.persistant = v.persistant
  clientUris : v'.clientUriToEngine = v.clientUriToEngine
  engineOf : v'.engineOf = v.engineOf
  hosts : ∀ host, host ∈ v'.hostnameToEngine ↔ host ∈ v.hostnameToEngine ∨ host ∈ reply.hosts
  state : ∀ engine, v'.stateOf engine = v.shown reply engine
  engines : ∀ engine, engine ∈ v'.engineToState ↔
    engine ∈ v.engineToState ∨ v.Touches reply engine
  keys : ∀ name, v'.mgrToKeys.lookup name =
    after (ManagerView.setsKeys name) (v.mgrToKeys.lookup name) reply.view
  holder : ∀ file, v'.persistantKeyToMgr.lookup file =
    after (ManagerView.setsHolder v.ephemeral file) (v.persistantKeyToMgr.lookup file) reply.view

/-! ## The loops -/

section Loops

variable {v w w' v' : ServerlessSystemView} {reply : GetViewReply}

theorem lookup_foldl_insert (keys : List String) (name : String) (m : UMap String String)
    (file : String) : (keys.foldl (fun m key => m.insert key name) m).lookup file =
      if file ∈ keys then some name else m.lookup file := by
  induction keys generalizing m with
  | nil => simp
  | cons key keys ih =>
      rw [List.foldl_cons, ih]
      by_cases hkey : file = key <;> simp [hkey]

/-- What the loop over the managers makes of the tables. -/
theorem parseManagerView_eq {view : ManagerView} {storage : StorageName}
    (hnames : NamesStorage view.name storage) (hok : v.parseManagerView view = .ok v') :
    v' = { v with
      hostnameToEngine := modify v.hostnameToEngine (hostPart view.uri) "" id
      engineToState :=
        if storage = v.ephemeral then
          modify v.engineToState (v.engineOf (hostPart view.uri)) {} fun state =>
            { state with ephemeralName := view.name }
        else v.engineToState
      persistantKeyToMgr :=
        if storage = v.ephemeral then v.persistantKeyToMgr
        else view.key.foldl (fun m key => m.insert key view.name) v.persistantKeyToMgr
      mgrToKeys := v.mgrToKeys.insert view.name view.key } := by
  obtain ⟨sName, hsName, hparse⟩ := (nameToStorageName_parses_iff _ _).mpr hnames
  simp only [parseManagerView, uriToHostname_eq] at hok
  split at hok
  · simp only [hsName, hparse, bind, Except.bind, pure, Except.pure, Except.ok.injEq] at hok
    subst hok
    by_cases heq : storage = v.ephemeral <;> simp [engineOfHost, modifyEngine, engineOf, heq]
  · cases hok

theorem parseClientView_eq {client : ClientView} (hok : v.parseClientView client = .ok v') :
    v' = { v with
      hostnameToEngine := modify v.hostnameToEngine (hostPart client.uri) "" id
      engineToState :=
        modify v.engineToState (v.engineOf (hostPart client.uri)) {} fun state =>
          { state with clientName := client.name } } := by
  simp only [parseClientView, uriToHostname_eq] at hok
  split at hok
  · simp only [bind, Except.bind, pure, Except.pure, Except.ok.injEq] at hok
    exact hok.symm
  · cases hok

theorem Parsed.refl (v : ServerlessSystemView) : Parsed v {} v where
  ephemeral := rfl
  persistant := rfl
  clientUris := rfl
  engineOf := rfl
  hosts := by simp [GetViewReply.hosts]
  state engine := rfl
  engines := by simp [Touches]
  keys _ := rfl
  holder _ := rfl

/-- A host that a reply is about keeps its engine. -/
theorem engineOf_noteHost (m : UMap String String) (host : String) :
    (fun host' => entry (modify m host "" id) host' "") = fun host' => entry m host' "" := by
  funext host'
  rw [entry_modify]
  split_ifs with heq
  · rw [heq, id]
  · rfl

theorem shown_snoc_view (v : ServerlessSystemView) (views : List ManagerView) (view : ManagerView)
    (engine : String) : v.shown { view := views ++ [view] } engine =
      { v.shown { view := views } engine with
        ephemeralName := (view.setsEphemeral v.ephemeral v.engineOf engine).getD
          (v.shown { view := views } engine).ephemeralName } := by
  simp [shown]

theorem touches_snoc_view (v : ServerlessSystemView) (views : List ManagerView)
    (view : ManagerView) (engine : String) : v.Touches { view := views ++ [view] } engine ↔
      v.Touches { view := views } engine ∨
        view.setsEphemeral v.ephemeral v.engineOf engine ≠ none := by
  simp [Touches, or_and_right, exists_or]

theorem Parsed.snoc_view {views : List ManagerView} {view : ManagerView} {storage : StorageName}
    (h : Parsed v { view := views } w) (hnames : NamesStorage view.name storage)
    (hok : w.parseManagerView view = .ok w') : Parsed v { view := views ++ [view] } w' := by
  obtain rfl := parseManagerView_eq hnames hok
  clear hok
  have hengineOf := h.engineOf
  constructor
  case ephemeral => exact h.ephemeral
  case persistant => exact h.persistant
  case clientUris => exact h.clientUris
  case engineOf => exact (engineOf_noteHost w.hostnameToEngine _).trans hengineOf
  case hosts =>
    intro host
    simp only [mem_modify, h.hosts, GetViewReply.hosts, List.map_append, List.mem_append,
      List.map_cons, List.map_nil, List.mem_singleton, List.not_mem_nil, or_false]
    tauto
  case state =>
    intro engine
    rw [shown_snoc_view, ← h.state, ManagerView.setsEphemeral_of_names hnames, ← hengineOf]
    by_cases heq : storage = v.ephemeral
    · simp only [stateOf, h.ephemeral, if_pos heq, entry_modify]
      by_cases hengine : engine = w.engineOf (hostPart view.uri)
      · simp [heq, ← hengine]
      · simp [hengine, Ne.symm hengine]
    · simp [stateOf, h.ephemeral, heq]
  case engines =>
    intro engine
    rw [touches_snoc_view, ManagerView.setsEphemeral_of_names hnames, ← hengineOf, ← or_assoc,
      ← h.engines]
    by_cases heq : storage = v.ephemeral
    · simp [h.ephemeral, heq, or_comm, eq_comm]
    · simp [h.ephemeral, heq]
  case keys =>
    intro name
    rw [lookup_insert_ite, h.keys, after_append]
    by_cases hname : name = view.name
    · simp [ManagerView.setsKeys, hname]
    · simp [ManagerView.setsKeys, hname, Ne.symm hname]
  case holder =>
    intro file
    rw [after_append, ← h.holder, after_cons, after_nil,
      ManagerView.setsHolder_of_names hnames]
    by_cases heq : storage = v.ephemeral
    · simp [h.ephemeral, heq]
    · simp only [h.ephemeral, if_neg heq, lookup_foldl_insert]
      by_cases hfile : file ∈ view.key <;> simp [heq, hfile]

theorem Parsed.snoc_client {views : List ManagerView} {clients : List ClientView}
    {client : ClientView} (h : Parsed v { view := views, client := clients } w)
    (hok : w.parseClientView client = .ok w') :
    Parsed v { view := views, client := clients ++ [client] } w' := by
  obtain rfl := parseClientView_eq hok
  clear hok
  have hengineOf := h.engineOf
  constructor
  case ephemeral => exact h.ephemeral
  case persistant => exact h.persistant
  case clientUris => exact h.clientUris
  case engineOf => exact (engineOf_noteHost w.hostnameToEngine _).trans hengineOf
  case hosts =>
    intro host
    simp only [mem_modify, h.hosts, GetViewReply.hosts, List.map_append, List.mem_append,
      List.map_cons, List.map_nil, List.mem_singleton]
    tauto
  case state =>
    intro engine
    have hshown : v.shown { view := views, client := clients ++ [client] } engine =
        { w.stateOf engine with
          clientName := (client.setsClient w.engineOf engine).getD
            (w.stateOf engine).clientName } := by
      simp [shown, h.state, hengineOf]
    rw [hshown, ClientView.setsClient]
    simp only [stateOf, entry_modify]
    by_cases hengine : engine = w.engineOf (hostPart client.uri)
    · simp [← hengine]
    · simp [hengine, Ne.symm hengine]
  case engines =>
    intro engine
    have htouches : v.Touches { view := views, client := clients ++ [client] } engine ↔
        v.Touches { view := views, client := clients } engine ∨
          client.setsClient w.engineOf engine ≠ none := by
      simp [Touches, or_and_right, exists_or, or_assoc, hengineOf]
    rw [htouches, ← or_assoc, ← h.engines]
    simp [ClientView.setsClient, or_comm, eq_comm]
  case keys => exact h.keys
  case holder => exact h.holder

/-- **What a reply leaves.** Each entry of the tables is decided by the last entry of the reply
that is about it. -/
theorem parsed_of_ok (hok : v.parseGetViewReply reply = .ok v') : Parsed v reply v' := by
  have hwf := (parseGetViewReply_ok_iff v reply).mp ⟨v', hok⟩
  have hviews : ∀ views : List ManagerView,
      (∀ view ∈ views, ∃ storage, NamesStorage view.name storage) →
      ∀ w, views.foldlM parseManagerView v = .ok w → Parsed v { view := views } w := by
    intro views
    induction views using List.reverseRecOn with
    | nil =>
        intro _ w hw
        cases hw
        exact .refl v
    | append_singleton views view ih =>
        intro hnames w hw
        obtain ⟨w₁, hw₁, hstep⟩ := foldlM_snoc_ok.mp hw
        obtain ⟨storage, hstorage⟩ := hnames view (by simp)
        exact (ih (fun view' hv => hnames view' (by simp [hv])) w₁ hw₁).snoc_view hstorage hstep
  have hclients : ∀ (clients : List ClientView) (w₀ : ServerlessSystemView),
      Parsed v { view := reply.view } w₀ → ∀ w, clients.foldlM parseClientView w₀ = .ok w →
        Parsed v { view := reply.view, client := clients } w := by
    intro clients
    induction clients using List.reverseRecOn with
    | nil =>
        intro w₀ h₀ w hw
        cases hw
        exact h₀
    | append_singleton clients client ih =>
        intro w₀ h₀ w hw
        obtain ⟨w₁, hw₁, hstep⟩ := foldlM_snoc_ok.mp hw
        exact (ih w₀ h₀ w₁ hw₁).snoc_client hstep
  obtain ⟨w, hmanagers, hrest⟩ := parseGetViewReply_ok.mp hok
  have hparsed := hviews reply.view (fun view hv => (hwf.1 view hv).2) w hmanagers
  exact hclients reply.client w hparsed v' hrest

end Loops

/-! ## A reply that is parsed again -/

section Again

variable {v v' v'' : ServerlessSystemView} {reply : GetViewReply}

/-- Hosts keep their engines, so a reply touches the same engines the next time. -/
theorem Parsed.touches_iff (h : Parsed v reply v') (reply' : GetViewReply) (engine : String) :
    v'.Touches reply' engine ↔ v.Touches reply' engine := by
  simp only [Touches, h.ephemeral, h.engineOf]

theorem Parsed.hostnameToEngine_eq (h : Parsed v reply v') (h' : Parsed v' reply v'') :
    v''.hostnameToEngine = v'.hostnameToEngine := by
  refine ext_entry "" (fun host => ?_) fun host => congrFun h'.engineOf host
  have hhosts := h.hosts host
  have hhosts' := h'.hosts host
  tauto

theorem Parsed.engineToState_eq (h : Parsed v reply v') (h' : Parsed v' reply v'') :
    v''.engineToState = v'.engineToState := by
  refine ext_entry {} (fun engine => ?_) fun engine => ?_
  · have hengines := h.engines engine
    have hengines' := h'.engines engine
    rw [h.touches_iff] at hengines'
    tauto
  · refine (h'.state engine).trans ?_
    show v'.shown reply engine = v'.stateOf engine
    rw [shown, h.state engine, h.ephemeral, h.engineOf]
    simp [shown]

/-- Parsing a reply twice is parsing it once. -/
theorem Parsed.again (h : Parsed v reply v') (h' : Parsed v' reply v'') : v'' = v' := by
  have hkeys : v''.mgrToKeys = v'.mgrToKeys := by
    refine Finmap.ext_lookup fun name => ?_
    rw [h'.keys, h.keys, after_after]
  have hholders : v''.persistantKeyToMgr = v'.persistantKeyToMgr := by
    refine Finmap.ext_lookup fun file => ?_
    rw [h'.holder, h.holder, h.ephemeral, after_after]
  exact ServerlessSystemView.ext h'.ephemeral h'.persistant h'.clientUris
    (h.engineToState_eq h') (h.hostnameToEngine_eq h') hkeys hholders

/-- **Parsing a reply is idempotent.** A second time it changes nothing, and no engine is given
another load, nor a host that has an engine another engine. -/
theorem parseGetViewReply_idempotent (v : ServerlessSystemView) {reply : GetViewReply}
    (hwf : reply.WellFormed) :
    ∃ v', v.parseGetViewReply reply = .ok v' ∧ v'.parseGetViewReply reply = .ok v' ∧
      (∀ engine state, v.engineToState.lookup engine = some state →
        ∃ state', v'.engineToState.lookup engine = some state' ∧ load state' = load state) ∧
      ∀ host engine, v.hostnameToEngine.lookup host = some engine →
        v'.hostnameToEngine.lookup host = some engine := by
  have htotal : ∀ w : ServerlessSystemView, ∃ w', w.parseGetViewReply reply = .ok w' :=
    fun w => (parseGetViewReply_ok_iff w reply).mpr ⟨hwf.views, hwf.clients⟩
  obtain ⟨v', hok⟩ := htotal v
  obtain ⟨v'', hagain⟩ := htotal v'
  have hparsed := parsed_of_ok hok
  obtain rfl := hparsed.again (parsed_of_ok hagain)
  refine ⟨v'', hok, hagain, ?_, ?_⟩
  · intro engine state hstate
    have hmem := (hparsed.engines engine).mpr (.inl (mem_of_lookup hstate))
    refine ⟨_, lookup_of_mem {} hmem, ?_⟩
    have hload := (parseGetViewReply_sameLoad hok).entry engine
    rwa [entry_of_lookup {} hstate] at hload
  · intro host engine hengine
    have hmem := (hparsed.hosts host).mpr (.inl (mem_of_lookup hengine))
    rw [lookup_of_mem "" hmem]
    have hsame := congrFun hparsed.engineOf host
    rw [ServerlessSystemView.engineOf, ServerlessSystemView.engineOf,
      entry_of_lookup "" hengine] at hsame
    rw [hsame]

end Again

section Example

/-- Two managers of a host without an engine, of which the second one has the keys of the
first, and a client there. -/
def crowdedReply : GetViewReply where
  view := [{ name := "manager:EPHEMERAL:MANAGED:h", uri := "h:1", key := ["k"] },
    { name := "manager:REDIS:MANAGED:h", uri := "h:2", key := ["k"] },
    { name := "manager:EPHEMERAL:MANAGED:h", uri := "h:1" }]
  client := [{ name := "client:h", uri := "h:4" }]

theorem crowdedReply_wellFormed : crowdedReply.WellFormed where
  views := by
    simp only [crowdedReply, List.forall_mem_cons, List.not_mem_nil, false_implies, implies_true,
      and_true]
    exact ⟨⟨by decide, .ephemeral, by decide⟩, ⟨by decide, .redis, by decide⟩,
      by decide, .ephemeral, by decide⟩
  clients := by decide

/-- A view that knows nothing yet. -/
def freshView : ServerlessSystemView := { ephemeral := .ephemeral, persistant := .fakePersistant }

theorem parseGetViewReply_idempotent_crowded :
    ∃ v', freshView.parseGetViewReply crowdedReply = .ok v' ∧
      v'.parseGetViewReply crowdedReply = .ok v' ∧
      (∀ engine state, freshView.engineToState.lookup engine = some state →
        ∃ state', v'.engineToState.lookup engine = some state' ∧ load state' = load state) ∧
      ∀ host engine, freshView.hostnameToEngine.lookup host = some engine →
        v'.hostnameToEngine.lookup host = some engine :=
  parseGetViewReply_idempotent freshView crowdedReply_wellFormed

end Example

end ServerlessSystemView

end ProgrammableCaching
