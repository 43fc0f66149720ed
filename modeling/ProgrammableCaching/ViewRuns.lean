import ProgrammableCaching.ParsedViews

/-! The tables of the system view after a run of calls. An engine that is schedulable has an
ephemeral manager of its own host, and the keys noted for that manager are those of the entry
about it that was parsed last. -/

namespace ProgrammableCaching

open UnorderedMap LastWriter Runs

/-- The entries about managers that a call parses. -/
def ViewCall.entries : ViewCall → List ManagerView
  | .parseGetViewReply masterView => masterView.view
  | .addExecutionEngine _ _ _ | .tasksScheduled _ => []

/-- The entries about managers that the calls parse. -/
def entries (calls : List ViewCall) : List ManagerView := calls.flatMap ViewCall.entries

@[simp] theorem entries_append (calls calls' : List ViewCall) :
    entries (calls ++ calls') = entries calls ++ entries calls' := by
  simp [entries]

@[simp] theorem entries_singleton (call : ViewCall) : entries [call] = call.entries := by
  simp [entries]

/-- The entry about the manager called `name` that was parsed last. -/
def LatestEntry (calls : List ViewCall) (name : String) (view : ManagerView) : Prop :=
  ∃ pre post, entries calls = pre ++ view :: post ∧ view.name = name ∧
    ∀ later ∈ post, later.name ≠ name

/-- An entry of a reply that is parsed after the calls `before` sets the ephemeral manager of
the engine. -/
def SetsEphemeral (storage : StorageName) (engine : String) (before : List ViewCall)
    (view : ManagerView) : Prop :=
  NamesStorage view.name storage ∧ latestEngine (hostPart view.uri) before = engine

/-- No entry after this one sets the ephemeral manager of the engine, and the engine is not
introduced again. -/
def SetLast (storage : StorageName) (engine : String) (calls : List ViewCall)
    (view : ManagerView) : Prop :=
  ∃ before reply after pre post, calls = before ++ .parseGetViewReply reply :: after ∧
    reply.view = pre ++ view :: post ∧ SetsEphemeral storage engine before view ∧
    (∀ later ∈ post, ¬ SetsEphemeral storage engine before later) ∧
    EveryStep (fun earlier call => ¬ call.Introduces engine ∧ ∀ later ∈ call.entries,
      ¬ SetsEphemeral storage engine (before ++ .parseGetViewReply reply :: earlier) later) after

namespace ServerlessSystemView

/-! ## The tables -/

/-- What the tables of hosts, of keys and of persistent files say after the calls. -/
structure TablesAfter (storage persistant : StorageName) (calls : List ViewCall)
    (v : ServerlessSystemView) : Prop where
  ephemeral : v.ephemeral = storage
  persistant : v.persistant = persistant
  engineOf : ∀ host, v.engineOf host = latestEngine host calls
  keys : ∀ name, v.mgrToKeys.lookup name =
    after (ManagerView.setsKeys name) none (entries calls)
  holder : ∀ file, v.persistantKeyToMgr.lookup file =
    after (ManagerView.setsHolder storage file) none (entries calls)

section Runs

variable {storage persistant : StorageName} {calls : List ViewCall} {call : ViewCall}
  {v v' : ServerlessSystemView}

theorem tablesAfter_start (storage persistant : StorageName) :
    TablesAfter storage persistant [] { ephemeral := storage, persistant := persistant } where
  ephemeral := rfl
  persistant := rfl
  engineOf host := by simp [ServerlessSystemView.engineOf, entry, latestEngine]
  keys _ := rfl
  holder _ := rfl

/-- Tasks that are scheduled leave the tables alone. -/
theorem tasksScheduled_tables (v : ServerlessSystemView) (decisions : SchedulingDecisions) :
    v.tasksScheduled decisions =
      { v with engineToState := (v.tasksScheduled decisions).engineToState } := by
  induction decisions generalizing v with
  | nil => rfl
  | cons d decisions ih =>
      rw [tasksScheduled_cons]
      exact ih _

theorem TablesAfter.step (h : TablesAfter storage persistant calls v) (hstep : Step v call v') :
    TablesAfter storage persistant (calls ++ [call]) v' := by
  cases call with
  | addExecutionEngine execUri clientUri maximumTasks =>
      obtain rfl := addExecutionEngine_eq hstep
      exact {
        ephemeral := h.ephemeral
        persistant := h.persistant
        engineOf host := by
          rw [latestEngine_snoc, ← h.engineOf]
          by_cases heq : host = hostPart execUri
          · simp [ServerlessSystemView.engineOf, entry, heq, ViewCall.introducedFor]
          · simp [ServerlessSystemView.engineOf, entry, heq, Ne.symm heq, ViewCall.introducedFor]
        keys name := by simpa [ViewCall.entries] using h.keys name
        holder file := by simpa [ViewCall.entries] using h.holder file }
  | parseGetViewReply masterView =>
      have hparsed := parsed_of_ok hstep
      exact {
        ephemeral := hparsed.ephemeral.trans h.ephemeral
        persistant := hparsed.persistant.trans h.persistant
        engineOf host := by
          rw [hparsed.engineOf, h.engineOf, latestEngine_snoc]
          rfl
        keys name := by
          rw [hparsed.keys, h.keys, entries_append, entries_singleton, after_append]
          rfl
        holder file := by
          rw [hparsed.holder, h.holder, h.ephemeral, entries_append, entries_singleton,
            after_append]
          rfl }
  | tasksScheduled decisions =>
      cases hstep
      rw [tasksScheduled_tables]
      exact {
        ephemeral := h.ephemeral
        persistant := h.persistant
        engineOf host := by
          rw [latestEngine_snoc]
          exact h.engineOf host
        keys name := by simpa [ViewCall.entries] using h.keys name
        holder file := by simpa [ViewCall.entries] using h.holder file }

theorem tablesAfter_of_reaches
    (hrun : Reaches Step { ephemeral := storage, persistant := persistant } calls v) :
    TablesAfter storage persistant calls v := by
  induction hrun with
  | nil => exact tablesAfter_start storage persistant
  | snoc _ hstep ih => exact ih.step hstep

/-! ## The ephemeral manager of an engine -/

variable {engine : String}

theorem setsEphemeral_ne_none_iff (h : TablesAfter storage persistant calls v)
    (view : ManagerView) : view.setsEphemeral v.ephemeral v.engineOf engine ≠ none ↔
      SetsEphemeral storage engine calls view := by
  simp [ManagerView.setsEphemeral, SetsEphemeral, h.ephemeral, h.engineOf]

/-- Calls without an entry for the engine leave the entry that was the last one. -/
theorem setLast_snoc {view : ManagerView} (h : SetLast storage engine calls view)
    (hnot : ¬ call.Introduces engine)
    (hnone : ∀ later ∈ call.entries, ¬ SetsEphemeral storage engine calls later) :
    SetLast storage engine (calls ++ [call]) view := by
  obtain ⟨before, reply, after, pre, post, rfl, hreply, hsets, hpost, hafter⟩ := h
  refine ⟨before, reply, after ++ [call], pre, post, by simp, hreply, hsets, hpost, ?_⟩
  exact everyStep_snoc.mpr ⟨hafter, hnot, hnone⟩

/-- What an engine knows as its ephemeral manager was set by the last entry for it. -/
def SetByLast (storage : StorageName) (engine : String) (calls : List ViewCall)
    (name : String) : Prop :=
  name = "" ∨ ∃ view, SetLast storage engine calls view ∧ view.name = name

theorem SetByLast.snoc {name : String} (h : SetByLast storage engine calls name)
    (hnot : ¬ call.Introduces engine)
    (hnone : ∀ later ∈ call.entries, ¬ SetsEphemeral storage engine calls later) :
    SetByLast storage engine (calls ++ [call]) name :=
  h.imp_right fun ⟨view, hlast, hview⟩ => ⟨view, setLast_snoc hlast hnot hnone, hview⟩

/-- The last entry of a reply for the engine sets its ephemeral manager. -/
theorem setByLast_parse {reply : GetViewReply} (h : TablesAfter storage persistant calls v)
    (hname : SetByLast storage engine calls (v.stateOf engine).ephemeralName) :
    SetByLast storage engine (calls ++ [.parseGetViewReply reply])
      (v.shown reply engine).ephemeralName := by
  rw [shown]
  rcases after_cases (ManagerView.setsEphemeral v.ephemeral v.engineOf engine)
      (v.stateOf engine).ephemeralName reply.view with
    ⟨hsame, hnone⟩ | ⟨pre, view, post, hsplit, hsets, hpost⟩
  · -- no entry of the reply is for the engine
    simp only [hsame]
    refine hname.snoc id fun later hlater hset => ?_
    exact (setsEphemeral_ne_none_iff h later).mpr hset (hnone later hlater)
  · have hset : SetsEphemeral storage engine calls view :=
      (setsEphemeral_ne_none_iff h view).mp (by simp [hsets])
    have hview := (ManagerView.setsEphemeral_eq_some.mp hsets).2
    refine .inr ⟨view, ⟨calls, reply, [], pre, post, rfl, hsplit, hset, ?_, by simp⟩, hview⟩
    intro later hlater hset'
    exact (setsEphemeral_ne_none_iff h later).mpr hset' (hpost later hlater)

theorem setByLast_step (h : TablesAfter storage persistant calls v)
    (hname : SetByLast storage engine calls (v.stateOf engine).ephemeralName)
    (hstep : Step v call v') :
    SetByLast storage engine (calls ++ [call]) (v'.stateOf engine).ephemeralName := by
  cases call with
  | addExecutionEngine execUri clientUri maximumTasks =>
      obtain rfl := addExecutionEngine_eq hstep
      rw [stateOf, entry_insert]
      split_ifs with heq
      · exact .inl rfl
      · exact hname.snoc (Ne.symm heq) (by simp [ViewCall.entries])
  | parseGetViewReply masterView =>
      rw [(parsed_of_ok hstep).state engine]
      exact setByLast_parse h hname
  | tasksScheduled decisions =>
      cases hstep
      rw [stateOf_tasksScheduled]
      exact hname.snoc id (by simp [ViewCall.entries])

theorem setByLast_of_reaches
    (hrun : Reaches Step { ephemeral := storage, persistant := persistant } calls v) :
    SetByLast storage engine calls (v.stateOf engine).ephemeralName := by
  induction hrun with
  | nil => exact .inl (by simp [stateOf, entry])
  | snoc hcalls hstep ih => exact setByLast_step (tablesAfter_of_reaches hcalls) ih hstep

/-- The keys noted for a manager that was parsed are those of its latest entry. -/
theorem latestEntry_of_mem (h : TablesAfter storage persistant calls v) {view : ManagerView}
    (hview : view ∈ entries calls) : ∃ latest, LatestEntry calls view.name latest ∧
      v.mgrToKeys.lookup view.name = some latest.key := by
  obtain ⟨pre, latest, post, hsplit, hname, hpost⟩ :=
    exists_last (P := fun view' => view'.name = view.name) ⟨view, hview, rfl⟩
  refine ⟨latest, ⟨pre, post, hsplit, hname, hpost⟩, ?_⟩
  rw [h.keys, hsplit]
  exact after_of_last (by simp [ManagerView.setsKeys, hname])
    fun later hlater => if_neg (hpost later hlater)

theorem mem_entries_of_setLast {view : ManagerView} (h : SetLast storage engine calls view) :
    view ∈ entries calls := by
  obtain ⟨before, reply, after, pre, post, rfl, hreply, _⟩ := h
  refine List.mem_flatMap.mpr ⟨.parseGetViewReply reply, by simp, ?_⟩
  simp [ViewCall.entries, hreply]

/-- **The cached files of a schedulable engine.** Its ephemeral manager was set last by an entry
of the ephemeral storage and of its own host, and its view of the storage is the list of keys
of the latest entry about that manager. -/
theorem ephemeralView_current
    (hrun : Reaches Step { ephemeral := storage, persistant := persistant } calls v)
    {order : List String} (ho : Enumerates order v.engineToState)
    (h : engine ∈ v.getSchedulableEngines order) :
    ∃ state setter latest, v.getEngineState engine = .ok state ∧
      SetLast storage engine calls setter ∧ setter.name = state.ephemeralName ∧
      hostPart setter.uri = hostPart engine ∧ NamesStorage state.ephemeralName storage ∧
      LatestEntry calls state.ephemeralName latest ∧
      v.getEphemeralStorageView engine = .ok latest.key := by
  obtain ⟨state, hlookup, havailable⟩ := (mem_getSchedulableEngines ho engine).mp h
  have hget : v.getEngineState engine = .ok state := by simp [getEngineState, hlookup]
  have hstate : v.stateOf engine = state :=
    entry_of_lookup ({} : EngineState) hlookup
  simp only [EngineState.availableToSchedule, Bool.and_eq_true, decide_eq_true_eq] at havailable
  obtain ⟨⟨⟨_, hname⟩, _⟩, hephemeral⟩ := havailable
  have hset : SetByLast storage engine calls (v.stateOf engine).ephemeralName :=
    setByLast_of_reaches hrun
  rw [hstate] at hset
  obtain ⟨setter, hlast, hsetter⟩ := hset.resolve_left hephemeral
  obtain ⟨latest, hlatest, hkeys⟩ :=
    latestEntry_of_mem (tablesAfter_of_reaches hrun) (mem_entries_of_setLast hlast)
  rw [hsetter] at hlatest hkeys
  have hne : engine ≠ "" := by
    rintro rfl
    exact hname ((congrArg EngineState.name hstate).symm.trans (name_stateOf_empty hrun))
  obtain ⟨before, _, _, _, _, _, _, ⟨hstorage, hengine⟩, _⟩ := id hlast
  refine ⟨state, setter, latest, hget, hlast, hsetter, (hostPart_latestEngine hne hengine).symm,
    hsetter ▸ hstorage, hlatest, ?_⟩
  simp [getEphemeralStorageView, hget, hkeys, bind, Except.bind, pure, Except.pure]

end Runs

section Example

/-- Host `h` gets an engine, a manager there is shown with `k`, and then with `j`. -/
def movedKeyCalls : List ViewCall :=
  [.addExecutionEngine "h:3" "h:2" 1,
    .parseGetViewReply {
      view := [{ name := "manager:EPHEMERAL:MANAGED:h", uri := "h:1", key := ["k"] }]
      client := [{ name := "client:h", uri := "h:2" }] },
    .parseGetViewReply {
      view := [{ name := "manager:EPHEMERAL:MANAGED:h", uri := "h:1", key := ["j"] }] }]

/-- The view after the calls; the empty one when a call fails. -/
def viewAfter (calls : List ViewCall) : ServerlessSystemView :=
  ((calls.foldlM exec freshView).toOption).getD freshView

theorem reaches_movedKey : Reaches Step freshView movedKeyCalls (viewAfter movedKeyCalls) :=
  .cons rfl (.cons rfl (.cons rfl .nil))

theorem ephemeralView_current_movedKey :
    ∃ state setter latest, (viewAfter movedKeyCalls).getEngineState "h:3" = .ok state ∧
      SetLast .ephemeral "h:3" movedKeyCalls setter ∧ setter.name = state.ephemeralName ∧
      hostPart setter.uri = hostPart "h:3" ∧ NamesStorage state.ephemeralName .ephemeral ∧
      LatestEntry movedKeyCalls state.ephemeralName latest ∧
      (viewAfter movedKeyCalls).getEphemeralStorageView "h:3" = .ok latest.key :=
  ephemeralView_current reaches_movedKey
    (by decide : Enumerates ["h:3"] (viewAfter movedKeyCalls).engineToState) (by decide)

end Example

end ServerlessSystemView

end ProgrammableCaching
