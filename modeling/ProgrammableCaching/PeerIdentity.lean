import ProgrammableCaching.Library.Fields
import ProgrammableCaching.MasterView

/-! Under which circumstances the peers of the storage master can be told apart by the
names that it makes for them. -/

namespace ProgrammableCaching

open UnorderedMap LastWriter Runs

namespace StorageMaster

/-- The fields of a manager's name. -/
theorem toList_generateName_manager (i : StorageManagerIntroduce) :
    (generateName (.storageManager i)).toList =
      "manager".toList ++ ':' :: (i.storageName.name.toList ++ ':' ::
        (i.storageType.name.toList ++ ':' :: i.rpcHostname.toList)) := by
  simp [generateName]

/-- The fields of a client's name. -/
theorem toList_generateName_client (i : StorageClientIntroduce) :
    (generateName (.storageClient i)).toList =
      "client".toList ++ ':' :: i.rpcHostname.toList := by
  simp [generateName]

/-- The name of a manager shows its storage, its storage type and its hostname, and
nothing else of it. -/
theorem generateName_manager_inj (i j : StorageManagerIntroduce) :
    generateName (.storageManager i) = generateName (.storageManager j) ↔
      i.storageName.name = j.storageName.name ∧ i.storageType.name = j.storageType.name ∧
        i.rpcHostname = j.rpcHostname := by
  rw [← String.toList_inj, toList_generateName_manager, toList_generateName_manager,
    Fields.join_inj (by decide) (by decide),
    Fields.join_inj i.storageName.colon_notMem_name j.storageName.colon_notMem_name,
    Fields.join_inj i.storageType.colon_notMem_name j.storageType.colon_notMem_name]
  simp only [String.toList_inj, true_and]

/-- The name of a client shows its hostname and nothing else of it. -/
theorem generateName_client_inj (i j : StorageClientIntroduce) :
    generateName (.storageClient i) = generateName (.storageClient j) ↔
      i.rpcHostname = j.rpcHostname := by
  rw [← String.toList_inj, toList_generateName_client, toList_generateName_client,
    Fields.join_inj (by decide) (by decide)]
  simp only [String.toList_inj, true_and]

theorem rpcUri_inj_port (hostname port port' : String) :
    rpcUri hostname port = rpcUri hostname port' ↔ port = port' := by
  rw [← String.toList_inj]
  simp [rpcUri, String.toList_inj]

end StorageMaster

/-! ## Runs -/

namespace StorageMaster

/-- A peer has the address of the latest introduction under its name. -/
theorem uriOf_eq (es : List MasterRequest) (name : String) :
    (run {} es).peerTracker.uriOf name = after (MasterRequest.address name) "" es := by
  induction es using List.reverseRecOn with
  | nil => rfl
  | append_singleton es e ih =>
      rw [run_snoc, after_append, ← ih, uriOf_handle, after_cons, after_nil]

/-- Every peer can be reached under the name it was given. The view lists every
manager with its own address and, as long as there were no storage changes, with the
files of its own latest introduction. -/
structure PeersKept (es : List MasterRequest) : Prop where
  resolves : ∀ peer request uri, .introduce peer request ∈ es → request.address = some uri →
    ∃ p, (run {} es).peerTracker.getPeerFromName (generateName request) = .ok p ∧ p.rpcUri = uri
  viewed : ∀ o, (run {} es).fileView.TraversedBy o →
    ∀ status reply, (run {} es).getView o = .ok (status, reply) →
      ∀ peer i, .introduce peer (.storageManager i) ∈ es →
        (∃ view ∈ reply.view, view.name = generateName (.storageManager i)) ∧
          ∀ view ∈ reply.view, view.name = generateName (.storageManager i) →
            view.uri = rpcUri i.rpcHostname i.rpcPort
  files : (∀ e ∈ es, ∀ request, e ≠ .storageChange request) →
    ∀ o, (run {} es).fileView.TraversedBy o →
      ∃ reply, (run {} es).getView o = .ok (.ok, reply) ∧
        ∀ pre peer i post, es = pre ++ .introduce peer (.storageManager i) :: post →
          (∀ peer' j, .introduce peer' (.storageManager j) ∈ post →
            generateName (.storageManager j) = generateName (.storageManager i) →
              rpcUri j.rpcHostname j.rpcPort ≠ rpcUri i.rpcHostname i.rpcPort) →
          ∀ view ∈ reply.view, view.name = generateName (.storageManager i) →
            ∀ key, key ∈ view.key ↔ key ∈ i.file

/-- No two managers of the same storage and storage type share a host, and no two
clients do. -/
structure OnePerHost (es : List MasterRequest) : Prop where
  managers : ∀ peer i peer' j, .introduce peer (.storageManager i) ∈ es →
    .introduce peer' (.storageManager j) ∈ es → i.storageName.name = j.storageName.name →
      i.storageType.name = j.storageType.name → i.rpcHostname = j.rpcHostname →
        i.rpcPort = j.rpcPort
  clients : ∀ peer i peer' j, .introduce peer (.storageClient i) ∈ es →
    .introduce peer' (.storageClient j) ∈ es → i.rpcHostname = j.rpcHostname →
      i.rpcPort = j.rpcPort

variable {es : List MasterRequest}

/-- With one manager and one client per host a name has one address only. -/
theorem OnePerHost.address_eq (h : OnePerHost es) {peer peer' : String}
    {request request' : IntroduceRequest} (hr : .introduce peer request ∈ es)
    (hr' : .introduce peer' request' ∈ es)
    (hname : generateName request = generateName request') {uri uri' : String}
    (huri : request.address = some uri) (huri' : request'.address = some uri') : uri = uri' := by
  cases request with
  | notSet => cases huri
  | storageManager i =>
      cases huri
      cases request' with
      | notSet => cases huri'
      | storageClient j => exact absurd hname (generateName_manager_ne_client i j)
      | storageManager j =>
          cases huri'
          obtain ⟨hstorage, htype, hhost⟩ := (generateName_manager_inj i j).mp hname
          rw [h.managers _ _ _ _ hr hr' hstorage htype hhost, hhost]
  | storageClient i =>
      cases huri
      cases request' with
      | notSet => cases huri'
      | storageManager j => exact absurd hname.symm (generateName_manager_ne_client j i)
      | storageClient j =>
          cases huri'
          have hhost := (generateName_client_inj i j).mp hname
          rw [h.clients _ _ _ _ hr hr' hhost, hhost]

theorem uriOf_of_onePerHost (h : OnePerHost es) {peer : String} {request : IntroduceRequest}
    {uri : String} (hr : .introduce peer request ∈ es) (huri : request.address = some uri) :
    (run {} es).peerTracker.uriOf (generateName request) = uri := by
  have hgives : (MasterRequest.introduce peer request).address (generateName request) =
      some uri := by
    simp [MasterRequest.address, huri]
  obtain ⟨pre, e, post, hsplit, he, hpost⟩ := exists_last
    (P := fun e => e.address (generateName request) ≠ none) ⟨_, hr, by simp [hgives]⟩
  obtain ⟨uri', huri'⟩ := Option.ne_none_iff_exists'.mp he
  rw [uriOf_eq, hsplit, after_of_last huri' fun e' he' => not_not.mp (hpost e' he')]
  have hmem : e ∈ es := by simp [hsplit]
  cases e with
  | storageChange request' => cases huri'
  | introduce peer' request' =>
      simp only [MasterRequest.address] at huri'
      split at huri'
      · rename_i hname
        exact h.address_eq hmem hr hname huri' huri
      · cases huri'

theorem tracked_of_introduce {peer : String} {request : IntroduceRequest} {uri : String}
    (hr : .introduce peer request ∈ es) (huri : request.address = some uri) :
    (run {} es).peerTracker.Tracked (generateName request) := by
  refine (tracked_run es _).mpr ⟨_, hr, ?_⟩
  cases request with
  | notSet => cases huri
  | storageManager i => rfl
  | storageClient i => rfl

/-- Without storage changes every manager of the view has introduced itself. -/
theorem changesIntroduced_of_introductions (h : ∀ e ∈ es, ∀ request, e ≠ .storageChange request) :
    ChangesIntroduced es := by
  rintro es' e ⟨post, rfl⟩
  have he := h e (by simp)
  cases e with
  | storageChange request => exact absurd rfl (he request)
  | introduce peer request => simp [MasterRequest.actions, MasterRequest.changedNames]

/-- Behind the latest introduction of a manager the history has no event about it. -/
theorem listing_eq_none_of_latest (honly : ∀ e ∈ es, ∀ request, e ≠ .storageChange request)
    {name : String} (hlatest : ∀ peer j, .introduce peer (.storageManager j) ∈ es →
      generateName (.storageManager j) ≠ name) (key : String) :
    ∀ ev ∈ history es, ev.listing name key = none := by
  intro ev hev
  obtain ⟨e, he, hev⟩ := List.mem_flatMap.mp hev
  rw [ViewEvent.listing_eq_none]
  cases e with
  | storageChange request => exact absurd rfl (honly _ he request)
  | introduce peer request =>
      cases request with
      | notSet => cases hev
      | storageClient i => cases hev
      | storageManager i =>
          obtain rfl := List.mem_singleton.mp hev
          exact hlatest peer i he

theorem peersKept_of_onePerHost (h : OnePerHost es) : PeersKept es where
  resolves peer request uri hr huri := by
    obtain ⟨p, hp, hpuri⟩ := PeerTracker.getPeerFromName_of_tracked (tracked_of_introduce hr huri)
    exact ⟨p, hp, hpuri.trans (uriOf_of_onePerHost h hr huri)⟩
  viewed o ho status reply hreply peer i hr := by
    obtain ⟨-, rfl⟩ := getView_ok ho hreply
    constructor
    · refine List.mem_map.mp ?_
      rw [names_viewReply ho, ho.1.2, mem_managerViews_run]
      exact ⟨_, hr, .inl rfl⟩
    · intro view hview hname
      rw [(mem_viewReply ho hview).2.1, hname]
      exact uriOf_of_onePerHost h hr rfl
  files honly o ho := by
    have hchanges := changesIntroduced_of_introductions honly
    have htracked : (run {} es).ViewsTracked := by
      intro name hname
      obtain ⟨e, he, hintro⟩ := (mem_run hchanges name).mp hname
      exact (tracked_run es name).mpr ⟨e, he, MasterRequest.introducedName_of_manager hintro⟩
    refine ⟨_, getView_of_viewsTracked htracked ho, ?_⟩
    intro pre peer i post hsplit hlatest view hview hname key
    have hi : .introduce peer (.storageManager i) ∈ es := by simp [hsplit]
    have hbehind : ∀ e ∈ post, e ∈ es := fun e he => by simp [hsplit, he]
    have hlast : ∀ peer' j, .introduce peer' (.storageManager j) ∈ post →
        generateName (.storageManager j) ≠ generateName (.storageManager i) :=
      fun peer' j hj hsame => hlatest peer' j hj hsame
        (h.address_eq (hbehind _ hj) hi hsame rfl rfl)
    have hhistory : history es = history pre ++ .introduced i :: history post := by
      simp [hsplit, history, MasterRequest.viewEvents]
    have hlists : after (ViewEvent.listing (generateName (.storageManager i)) key) False
        (history es) = (key ∈ i.file) := by
      rw [hhistory]
      exact after_of_last (by simp [ViewEvent.listing, ViewEvent.Concerns])
        (listing_eq_none_of_latest (fun e he => honly e (hbehind e he)) hlast key)
    rw [(mem_viewReply ho hview).2.2.2, lists_run hchanges, hname, hlists]

/-- **Names keep peers apart.** Every peer is reached under its name and seen in the
view with its own address and files exactly when managers of the same storage and
storage type, and clients, do not share hosts. -/
theorem peersKept_iff (es : List MasterRequest) : PeersKept es ↔ OnePerHost es := by
  constructor
  · intro h
    -- two introductions under one name resolve to one peer
    have hsame : ∀ peer request peer' request' uri uri', .introduce peer request ∈ es →
        .introduce peer' request' ∈ es → generateName request = generateName request' →
        request.address = some uri → request'.address = some uri' → uri = uri' := by
      intro peer request peer' request' uri uri' hr hr' hname huri huri'
      obtain ⟨p, hp, rfl⟩ := h.resolves peer request uri hr huri
      obtain ⟨p', hp', rfl⟩ := h.resolves peer' request' uri' hr' huri'
      rw [hname, hp'] at hp
      cases hp
      rfl
    constructor
    · intro peer i peer' j hi hj hstorage htype hhost
      have hname := (generateName_manager_inj i j).mpr ⟨hstorage, htype, hhost⟩
      have huri := hsame _ _ _ _ _ _ hi hj hname rfl rfl
      rwa [hhost, rpcUri_inj_port] at huri
    · intro peer i peer' j hi hj hhost
      have hname := (generateName_client_inj i j).mpr hhost
      have huri := hsame _ _ _ _ _ _ hi hj hname rfl rfl
      rwa [hhost, rpcUri_inj_port] at huri
  · exact peersKept_of_onePerHost

section Example

/-- Two managers of one host with different ports; the first one holds `k`. -/
def sharedHost : List MasterRequest :=
  [.introduce "p" (.storageManager { rpcHostname := "n", rpcPort := "1", file := ["k"] }),
    .introduce "q" (.storageManager { rpcHostname := "n", rpcPort := "2" })]

/-- Both have the same name: the second one takes over the address of the first, and its
files disappear from the view. -/
theorem shared_host_clobbers :
    (run {} sharedHost).peerTracker.uriOf "manager:EPHEMERAL:MANAGED:n" = "n:2" ∧
      ¬ (run {} sharedHost).fileView.Lists "manager:EPHEMERAL:MANAGED:n" "k" ∧
      ¬ PeersKept sharedHost := by
  refine ⟨rfl, by decide, fun h => ?_⟩
  obtain ⟨p, hp, huri⟩ := h.resolves "p" _ "n:1" List.mem_cons_self rfl
  have htaken : (run {} sharedHost).peerTracker.getPeerFromName "manager:EPHEMERAL:MANAGED:n" =
      .ok ⟨"manager:EPHEMERAL:MANAGED:n", "n:2", "q"⟩ := rfl
  cases hp.symm.trans htaken
  exact absurd huri (by decide)

end Example

end StorageMaster

end ProgrammableCaching
