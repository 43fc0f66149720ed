import ProgrammableCaching.ViewRuns

/-! The master lists its peers in the order of a hash table. What the scheduler asks its view
about introduced engines and about files does not depend on that order. -/

namespace ProgrammableCaching

open UnorderedMap LastWriter Runs

/-- The engine has been introduced. -/
def Introduced (calls : List ViewCall) (engine : String) : Prop :=
  ∃ call ∈ calls, call.Introduces engine

/-- An engine has been introduced for the host. -/
def HasEngine (calls : List ViewCall) (host : String) : Prop :=
  ∃ call ∈ calls, call.introducedFor host ≠ none

/-- The names of the managers are distinct, a host with an engine has one ephemeral manager and
one client, and no two other managers list the same key. -/
structure GetViewReply.Unambiguous (storage : StorageName) (calls : List ViewCall)
    (reply : GetViewReply) : Prop where
  names : (reply.view.map ManagerView.name).Nodup
  managers : ∀ view ∈ reply.view, ∀ view' ∈ reply.view, NamesStorage view.name storage →
    NamesStorage view'.name storage → hostPart view.uri = hostPart view'.uri →
      HasEngine calls (hostPart view.uri) → view = view'
  clients : ∀ client ∈ reply.client, ∀ client' ∈ reply.client,
    hostPart client.uri = hostPart client'.uri → HasEngine calls (hostPart client.uri) →
      client = client'
  keys : ∀ view ∈ reply.view, ∀ view' ∈ reply.view, ¬ NamesStorage view.name storage →
    ¬ NamesStorage view'.name storage → ∀ key ∈ view.key, key ∈ view'.key → view = view'

namespace ServerlessSystemView

/-- The views give the same answers about introduced engines and about files. -/
structure SameAnswers (calls : List ViewCall) (v₁ v₂ : ServerlessSystemView) : Prop where
  state : ∀ engine, Introduced calls engine → v₁.getEngineState engine = v₂.getEngineState engine
  schedulable : ∀ order₁ order₂, Enumerates order₁ v₁.engineToState →
    Enumerates order₂ v₂.engineToState → ∀ engine,
      engine ∈ v₁.getSchedulableEngines order₁ ↔ engine ∈ v₂.getSchedulableEngines order₂
  persistent : ∀ file, v₁.getPersistentMgrForFile file = v₂.getPersistentMgrForFile file
  cached : ∀ engine, Introduced calls engine →
    v₁.getEphemeralStorageView engine = v₂.getEphemeralStorageView engine

section Order

variable {storage persistant : StorageName} {calls : List ViewCall}
  {v v₁ v₂ : ServerlessSystemView} {reply reply' : GetViewReply} {engine : String}

/-- Entries of hosts with the same engine are of the same host. -/
theorem sameHost_of_engineOf (h : TablesAfter storage persistant calls v) (hne : engine ≠ "")
    {host host' : String} (hhost : v.engineOf host = engine) (hhost' : v.engineOf host' = engine) :
    host = host' ∧ HasEngine calls host := by
  rw [h.engineOf] at hhost hhost'
  refine ⟨(hostPart_latestEngine hne hhost).symm.trans (hostPart_latestEngine hne hhost'), ?_⟩
  by_contra hnone
  refine hne (hhost.symm.trans (after_of_none fun call hc => ?_))
  by_contra hintro
  exact hnone ⟨call, hc, hintro⟩

/-- The entries of an unambiguous reply leave an engine in one state, whatever their order. -/
theorem shown_eq (h : TablesAfter storage persistant calls v)
    (hreply : reply.Unambiguous storage calls)
    (hviews : reply.view.Perm reply'.view) (hclients : reply.client.Perm reply'.client)
    (hne : engine ≠ "") : v.shown reply engine = v.shown reply' engine := by
  have hmanager : after (ManagerView.setsEphemeral v.ephemeral v.engineOf engine)
      (v.stateOf engine).ephemeralName reply.view =
      after (ManagerView.setsEphemeral v.ephemeral v.engineOf engine)
        (v.stateOf engine).ephemeralName reply'.view := by
    refine after_ite_of_agree (fun _ => rfl) hviews ?_
    rintro view hview view' hview' ⟨hstorage, hengine⟩ ⟨hstorage', hengine'⟩
    rw [h.ephemeral] at hstorage hstorage'
    obtain ⟨hhost, hhas⟩ := sameHost_of_engineOf h hne hengine hengine'
    rw [hreply.managers view hview view' hview' hstorage hstorage' hhost hhas]
  have hclient : after (ClientView.setsClient v.engineOf engine)
      (v.stateOf engine).clientName reply.client =
      after (ClientView.setsClient v.engineOf engine)
        (v.stateOf engine).clientName reply'.client := by
    refine after_ite_of_agree (fun _ => rfl) hclients ?_
    intro client hmem client' hmem' hengine hengine'
    obtain ⟨hhost, hhas⟩ := sameHost_of_engineOf h hne hengine hengine'
    rw [hreply.clients client hmem client' hmem' hhost hhas]
  simp only [shown, hmanager, hclient]

theorem touches_perm (v : ServerlessSystemView) (hviews : reply.view.Perm reply'.view)
    (hclients : reply.client.Perm reply'.client) (engine : String) :
    v.Touches reply engine ↔ v.Touches reply' engine := by
  simp only [Touches, hviews.mem_iff, hclients.mem_iff]

theorem keys_eq (hreply : reply.Unambiguous storage calls) (hviews : reply.view.Perm reply'.view)
    (h₁ : Parsed v reply v₁) (h₂ : Parsed v reply' v₂) (name : String) :
    v₁.mgrToKeys.lookup name = v₂.mgrToKeys.lookup name := by
  rw [h₁.keys, h₂.keys]
  refine after_ite_of_agree (fun _ => rfl) hviews ?_
  intro view hview view' hview' hname hname'
  rw [List.inj_on_of_nodup_map hreply.names hview hview' (hname.trans hname'.symm)]

theorem holder_eq (h : TablesAfter storage persistant calls v)
    (hreply : reply.Unambiguous storage calls) (hviews : reply.view.Perm reply'.view)
    (h₁ : Parsed v reply v₁) (h₂ : Parsed v reply' v₂) (file : String) :
    v₁.persistantKeyToMgr.lookup file = v₂.persistantKeyToMgr.lookup file := by
  rw [h₁.holder, h₂.holder, h.ephemeral]
  refine after_ite_of_agree (fun _ => rfl) hviews ?_
  rintro view hview view' hview' ⟨hstorage, hfile⟩ ⟨hstorage', hfile'⟩
  rw [hreply.keys view hview view' hview' hstorage hstorage' file hfile hfile']

/-- The two views have the same state for every engine but the one of unknown hosts. -/
theorem getEngineState_eq (h : TablesAfter storage persistant calls v)
    (hreply : reply.Unambiguous storage calls) (hviews : reply.view.Perm reply'.view)
    (hclients : reply.client.Perm reply'.client) (h₁ : Parsed v reply v₁)
    (h₂ : Parsed v reply' v₂) (hne : engine ≠ "") :
    v₁.getEngineState engine = v₂.getEngineState engine := by
  have hstate : v₁.stateOf engine = v₂.stateOf engine := by
    rw [h₁.state, h₂.state, shown_eq h hreply hviews hclients hne]
  have hmem : engine ∈ v₁.engineToState ↔ engine ∈ v₂.engineToState := by
    rw [h₁.engines, h₂.engines, touches_perm v hviews hclients]
  have hlookup : v₁.engineToState.lookup engine = v₂.engineToState.lookup engine := by
    by_cases hknown : engine ∈ v₁.engineToState
    · rw [lookup_of_mem {} hknown, lookup_of_mem {} (hmem.mp hknown)]
      exact congrArg some hstate
    · rw [Finmap.lookup_eq_none.mpr hknown, Finmap.lookup_eq_none.mpr (mt hmem.mpr hknown)]
  simp only [getEngineState, hlookup]

/-- **The order of the peers in a reply does not matter.** -/
theorem parse_order (hrun : Reaches Step { ephemeral := storage, persistant := persistant } calls v)
    (hwf : reply.WellFormed) (hreply : reply.Unambiguous storage calls)
    (hviews : reply.view.Perm reply'.view) (hclients : reply.client.Perm reply'.client) :
    ∃ v₁ v₂, v.parseGetViewReply reply = .ok v₁ ∧ v.parseGetViewReply reply' = .ok v₂ ∧
      SameAnswers calls v₁ v₂ := by
  obtain ⟨v₁, hok₁⟩ := (parseGetViewReply_ok_iff v reply).mpr ⟨hwf.views, hwf.clients⟩
  obtain ⟨v₂, hok₂⟩ := (parseGetViewReply_ok_iff v reply').mpr
    ⟨fun view hview => hwf.views view (hviews.mem_iff.mpr hview),
      fun client hclient => hwf.clients client (hclients.mem_iff.mpr hclient)⟩
  have h := tablesAfter_of_reaches hrun
  have h₁ := parsed_of_ok hok₁
  have h₂ := parsed_of_ok hok₂
  have hintroduced : ∀ engine, Introduced calls engine → engine ≠ "" :=
    fun engine ⟨_, hc, hintro⟩ => introduces_of_reaches hrun hc hintro
  have hstate : ∀ engine, engine ≠ "" → v₁.getEngineState engine = v₂.getEngineState engine :=
    fun engine hne => getEngineState_eq h hreply hviews hclients h₁ h₂ hne
  refine ⟨v₁, v₂, hok₁, hok₂, ?_, ?_, ?_, ?_⟩
  · exact fun engine hintro => hstate engine (hintroduced engine hintro)
  · intro order₁ order₂ ho₁ ho₂ engine
    rw [mem_getSchedulableEngines_iff ho₁, mem_getSchedulableEngines_iff ho₂, h₁.state, h₂.state]
    by_cases hne : engine = ""
    · subst hne
      simp [EngineState.availableToSchedule, shown, name_stateOf_empty hrun]
    · rw [shown_eq h hreply hviews hclients hne]
  · intro file
    simp only [getPersistentMgrForFile, holder_eq h hreply hviews h₁ h₂]
  · intro engine hintro
    simp only [getEphemeralStorageView, hstate engine (hintroduced engine hintro),
      keys_eq hreply hviews h₁ h₂]

end Order

section Example

def introducedCalls : List ViewCall := [.addExecutionEngine "h:3" "h:2" 1]

/-- The managers of two hosts, of which `h` has an engine. -/
def twoHosts : GetViewReply where
  view := [{ name := "manager:EPHEMERAL:MANAGED:h", uri := "h:1", key := ["k"] },
    { name := "manager:FAKE_PERSISTANT:MANAGED:p", uri := "p:1", key := ["k"] }]
  client := [{ name := "client:h", uri := "h:2" }]

theorem twoHosts_unambiguous : twoHosts.Unambiguous .ephemeral introducedCalls where
  names := by decide
  managers view hview view' hview' _ _ hhost _ := by
    have hall : ∀ view ∈ twoHosts.view, ∀ view' ∈ twoHosts.view,
        hostPart view.uri = hostPart view'.uri → view = view' := by decide
    exact hall view hview view' hview' hhost
  clients := by simp [twoHosts]
  keys view hview view' hview' hstorage hstorage' _ _ _ := by
    have hall : ∀ view ∈ twoHosts.view, ∀ view' ∈ twoHosts.view,
        ¬ NamesStorage view.name .ephemeral → ¬ NamesStorage view'.name .ephemeral →
          view = view' := by decide
    exact hall view hview view' hview' hstorage hstorage'

theorem twoHosts_wellFormed : twoHosts.WellFormed where
  views := by
    simp only [twoHosts, List.forall_mem_cons, List.not_mem_nil, false_implies, implies_true,
      and_true]
    exact ⟨⟨by decide, .ephemeral, by decide⟩, by decide, .fakePersistant, by decide⟩
  clients := by decide

theorem parse_order_twoHosts :
    ∃ v₁ v₂, (viewAfter introducedCalls).parseGetViewReply twoHosts = .ok v₁ ∧
      (viewAfter introducedCalls).parseGetViewReply
        { twoHosts with view := twoHosts.view.reverse } = .ok v₂ ∧
      SameAnswers introducedCalls v₁ v₂ :=
  parse_order (.cons rfl .nil : Reaches Step freshView introducedCalls _) twoHosts_wellFormed
    twoHosts_unambiguous (List.reverse_perm _).symm (.refl _)

end Example

end ServerlessSystemView

end ProgrammableCaching
