import ProgrammableCaching.PeerIdentity
import ProgrammableCaching.ViewParsing

/-! The replies of the storage master and the parser of the scheduler: which requests
lead the master to names that `ParseGetViewReply` cannot take apart. -/

namespace ProgrammableCaching

open UnorderedMap LastWriter Runs

namespace StorageMaster

/-- The name of a manager names its storage when that is a declared one. -/
theorem namesStorage_manager_iff (i : StorageManagerIntroduce) :
    (∃ storage, NamesStorage (generateName (.storageManager i)) storage) ↔
      i.storageName.Declared := by
  simp only [namesStorage_iff (by decide) (toList_generateName_manager i)]
  constructor
  · rintro ⟨storage, hdeclared, tail, hjoin⟩
    have hname := (Fields.join_inj i.storageName.colon_notMem_name
      storage.colon_notMem_name).mp hjoin
    rw [String.toList_inj] at hname
    rwa [← StorageName.name_injective hdeclared hname.1.symm]
  · exact fun hdeclared => ⟨i.storageName, hdeclared, _, rfl⟩

/-- The storage that the name of a manager names is its own. -/
theorem namesStorage_generateName_iff {i : StorageManagerIntroduce} {storage : StorageName}
    (h : i.storageName.Declared) :
    NamesStorage (generateName (.storageManager i)) storage ↔ i.storageName = storage := by
  have hself : NamesStorage (generateName (.storageManager i)) i.storageName :=
    (namesStorage_iff (by decide) (toList_generateName_manager i)).mpr ⟨h, _, rfl⟩
  exact ⟨fun hnames => hself.unique hnames, fun heq => heq ▸ hself⟩

/-- The name of a client only names a storage when its hostname begins with one. -/
theorem namesStorage_client_iff (i : StorageClientIntroduce) :
    (∃ storage, NamesStorage (generateName (.storageClient i)) storage) ↔
      ∃ storage : StorageName, storage.Declared ∧ ∃ rest,
        i.rpcHostname = storage.name ++ ":" ++ rest := by
  simp only [namesStorage_iff (by decide) (toList_generateName_client i)]
  refine exists_congr fun storage => and_congr_right fun _ => ?_
  constructor
  · rintro ⟨tail, htail⟩
    refine ⟨String.ofList tail, ?_⟩
    rw [← String.toList_inj, htail]
    simp
  · rintro ⟨rest, hrest⟩
    exact ⟨rest.toList, by simp [hrest]⟩

/-- The addresses of the peer table have a host and a port. -/
theorem colon_mem_uriOf {es : List MasterRequest} {name : String}
    (h : (run {} es).peerTracker.Tracked name) :
    ':' ∈ ((run {} es).peerTracker.uriOf name).toList := by
  have hcolon : ∀ e : MasterRequest, ∀ uri, e.address name = some uri → ':' ∈ uri.toList := by
    intro e uri huri
    cases e with
    | storageChange request => cases huri
    | introduce peer request =>
        simp only [MasterRequest.address] at huri
        split at huri
        · cases request <;> cases huri <;> simp [rpcUri]
        · cases huri
  have hintroduced : ∃ e ∈ es, e.address name ≠ none := by
    obtain ⟨e, he, hname⟩ := (tracked_run es name).mp h
    refine ⟨e, he, ?_⟩
    cases e with
    | storageChange request => cases hname
    | introduce peer request =>
        cases request with
        | notSet => cases hname
        | storageManager i =>
            cases hname
            simp [MasterRequest.address, IntroduceRequest.address]
        | storageClient i =>
            cases hname
            simp [MasterRequest.address, IntroduceRequest.address]
  obtain ⟨pre, e, post, hsplit, he, hpost⟩ := exists_last hintroduced
  obtain ⟨uri, huri⟩ := Option.ne_none_iff_exists'.mp he
  rw [uriOf_eq, hsplit, after_of_last huri fun e' he' => not_not.mp (hpost e' he')]
  exact hcolon e uri huri

/-- The requests give the master only names that the scheduler can take apart: managers
introduce themselves with a declared storage, and no storage change is about a
client, unless the hostname of the client begins with the name of a storage. -/
structure NamesParse (es : List MasterRequest) : Prop where
  managers : ∀ peer i, .introduce peer (.storageManager i) ∈ es → i.storageName.Declared
  clients : ∀ peer i, .introduce peer (.storageClient i) ∈ es →
    ∀ e ∈ es, generateName (.storageClient i) ∈ e.changedNames →
      ∃ storage : StorageName, storage.Declared ∧ ∃ rest,
        i.rpcHostname = storage.name ++ ":" ++ rest

theorem exists_of_introducedManager {e : MasterRequest} {name : String}
    (h : e.introducedManager = some name) : ∃ i, generateName (.storageManager i) = name := by
  cases e with
  | storageChange request => cases h
  | introduce peer request =>
      cases request with
      | notSet => cases h
      | storageClient i => cases h
      | storageManager i => exact ⟨i, Option.some.inj h⟩

/-- The peers of the view have names that name a storage. -/
theorem namesStorage_managerViews_iff {es : List MasterRequest} (h : (run {} es).ViewsTracked) :
    (∀ name ∈ (run {} es).fileView.managerViews, ∃ storage, NamesStorage name storage) ↔
      NamesParse es := by
  constructor
  · intro hall
    constructor
    · intro peer i hi
      refine (namesStorage_manager_iff i).mp (hall _ ?_)
      exact (mem_managerViews_run es _).mpr ⟨_, hi, .inl rfl⟩
    · intro peer i _ e he hchanged
      refine (namesStorage_client_iff i).mp (hall _ ?_)
      exact (mem_managerViews_run es _).mpr ⟨e, he, .inr hchanged⟩
  · intro hgood name hname
    obtain ⟨e, he, hintroduced⟩ := (tracked_run es name).mp (h name hname)
    cases e with
    | storageChange request => cases hintroduced
    | introduce peer request =>
        cases request with
        | notSet => cases hintroduced
        | storageManager i =>
            cases hintroduced
            exact (namesStorage_manager_iff i).mpr (hgood.managers peer i he)
        | storageClient i =>
            cases hintroduced
            obtain ⟨e', he', hmanager | hchanged⟩ := (mem_managerViews_run es _).mp hname
            · obtain ⟨j, hj⟩ := exists_of_introducedManager hmanager
              exact absurd hj (generateName_manager_ne_client j i)
            · exact (namesStorage_client_iff i).mpr (hgood.clients peer i he e' he' hchanged)

/-- **Views that can be parsed.** When `GetView` replies, the scheduler can parse the
reply, whatever its own view, exactly when the requests so far have given the master
only names that can be taken apart. -/
theorem getView_parses_iff {es : List MasterRequest} {o : ViewOrder} {status : Status}
    {reply : GetViewReply} (ho : (run {} es).fileView.TraversedBy o)
    (h : (run {} es).getView o = .ok (status, reply)) (v : ServerlessSystemView) :
    (∃ v', v.parseGetViewReply reply = .ok v') ↔ NamesParse es := by
  obtain ⟨htracked, rfl⟩ := getView_ok ho h
  rw [ServerlessSystemView.parseGetViewReply_ok_iff, ← namesStorage_managerViews_iff htracked]
  constructor
  · rintro ⟨hviews, _⟩ name hname
    rw [← ho.1.2, ← names_viewReply ho] at hname
    obtain ⟨view, hview, rfl⟩ := List.mem_map.mp hname
    exact (hviews view hview).2
  · intro hall
    refine ⟨fun view hview => ?_, fun client hclient => by cases hclient⟩
    obtain ⟨hname, huri, _⟩ := mem_viewReply ho hview
    exact ⟨huri ▸ colon_mem_uriOf (htracked _ hname), hall _ hname⟩

section Example

/-- A manager and a client of one host; the put at the manager is reported. -/
def declaredStorage : List MasterRequest :=
  [.introduce "p" (.storageManager { rpcHostname := "n", rpcPort := "1" }),
    .introduce "q" (.storageClient { rpcHostname := "n", rpcPort := "2" }),
    .storageChange { storageChange := [.put ⟨"k", { name := "manager:EPHEMERAL:MANAGED:n" }⟩] }]

theorem getView_parses_iff_declaredStorage :
    (∃ v', ({ ephemeral := .ephemeral, persistant := .redis } : ServerlessSystemView
      ).parseGetViewReply ((run {} declaredStorage).viewReply
        ⟨["manager:EPHEMERAL:MANAGED:n"], fun _ => ["k"]⟩) = .ok v') ↔
      NamesParse declaredStorage :=
  getView_parses_iff (o := ⟨["manager:EPHEMERAL:MANAGED:n"], fun _ => ["k"]⟩) (by decide) rfl _

/-- A manager introduces itself with a storage that the enum does not declare. -/
def undeclaredStorage : List MasterRequest :=
  [.introduce "p" (.storageManager {
    storageName := .unrecognized ⟨7, by decide⟩, rpcHostname := "n", rpcPort := "1" })]

/-- The storage of the manager has no name, and the assertion of the scheduler fails. -/
theorem undeclared_storage_not_parsed :
    (run {} undeclaredStorage).fileView.TraversedBy ⟨["manager::MANAGED:n"], fun _ => []⟩ ∧
      (run {} undeclaredStorage).getView ⟨["manager::MANAGED:n"], fun _ => []⟩ =
        .ok (.ok, { view := [{ name := "manager::MANAGED:n", uri := "n:1" }] }) ∧
      ({ ephemeral := .ephemeral, persistant := .redis } : ServerlessSystemView
        ).parseGetViewReply { view := [{ name := "manager::MANAGED:n", uri := "n:1" }] } =
          .error .assertion :=
  ⟨by decide, rfl, by rfl⟩

end Example

end StorageMaster

end ProgrammableCaching
