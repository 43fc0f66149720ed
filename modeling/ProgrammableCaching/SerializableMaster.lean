import Mathlib.Data.List.Permutation
import ProgrammableCaching.ConcurrentMaster

/-! Requests that the storage master handles at the same time, against the serial
orders of the same requests: where conflicting steps do not go round in a circle,
some serial order leaves the same view and gives the same replies. -/

namespace ProgrammableCaching

open UnorderedMap Pools Runs Serializability

/-- What the handler of a request does to the view. -/
def MasterCall.viewSteps : MasterCall → List ViewStep
  | .update e => e.updates.map .update
  | .getView => [.snapshot]

theorem MasterPhase.of_done {t : PeerTracker} {call : MasterCall} {made : List ViewStep}
    {read : List (Option StorageFileView)} {reply : MasterReply}
    (h : MasterPhase t call made read (.done reply)) :
    made = call.viewSteps ∧ (call = .getView → ∃ v reply', reply = .getView .ok reply' ∧
      read = [some v] ∧ reply'.contents = v.contents) := by
  generalize hp : (Prog.done reply : MasterThread MasterReply) = p at h
  cases h with
  | @update e past rest _ hsplit _ =>
      cases rest with
      | nil => exact ⟨by simp [MasterCall.viewSteps, hsplit], nofun⟩
      | cons u rest => cases hp
  | unread => cases hp
  | read => cases hp
  | @replied v reply' hshow =>
      cases hp
      exact ⟨rfl, fun _ => ⟨v, reply', rfl, rfl, hshow⟩⟩

/-- The master after a request. -/
def MasterCall.after (m : StorageMaster) : MasterCall → StorageMaster
  | .update e => m.handle e
  | .getView => m

namespace StorageMaster

/-- The master after the requests, handled one at a time. -/
def runCalls (m : StorageMaster) (calls : List MasterCall) : StorageMaster :=
  calls.foldl MasterCall.after m

/-- The requests with the given numbers. -/
def pick (calls : List MasterCall) (order : List ℕ) : List MasterCall :=
  order.filterMap fun i => calls[i]?

/-- Handled one at a time in the given order, the requests leave the same view,
and every `GetView` replies with the same managers and keys. -/
structure SerializedBy (m : StorageMaster) (calls : List MasterCall)
    (P : Pool StorageMaster (MasterThread MasterReply)) (order : List ℕ) : Prop where
  perm : order.Perm (List.range calls.length)
  view : (m.runCalls (pick calls order)).fileView = P.state.fileView
  replies : ∀ pre i post, order = pre ++ i :: post → calls[i]? = some .getView →
    ∃ reply, P.threads[i]? = some (.done (.getView .ok reply)) ∧
      ∀ o, (m.runCalls (pick calls pre)).fileView.TraversedBy o →
        ∃ reply', (m.runCalls (pick calls pre)).getView o = .ok (.ok, reply') ∧
          reply'.contents = reply.contents

theorem fileView_after (m : StorageMaster) (call : MasterCall) :
    (call.after m).fileView = call.viewSteps.foldl (fun v s => s.apply v) m.fileView := by
  cases call with
  | getView => rfl
  | update e =>
      rw [MasterCall.viewSteps, List.foldl_map, MasterCall.after, ← MasterThread.foldl_updates,
        MasterThread.foldl_apply_fileView]
      rfl

/-- The view after a serial schedule is that after the requests in its order. -/
theorem fileView_runCalls {l : List (ℕ × ViewStep)} {calls : List MasterCall}
    (hsteps : ∀ i call, calls[i]? = some call → (stepsOf i l).map Prod.snd = call.viewSteps)
    (order : List ℕ) (horder : ∀ i ∈ order, i < calls.length) (m : StorageMaster) :
    (m.runCalls (pick calls order)).fileView =
      final ViewStep.apply m.fileView (serial order l) := by
  induction order generalizing m with
  | nil => rfl
  | cons i order ih =>
      have hlt := horder i (by simp)
      have hcall := List.getElem?_eq_getElem hlt
      have hserial : serial (i :: order) l = stepsOf i l ++ serial order l := rfl
      have hfirst : final ViewStep.apply m.fileView (stepsOf i l) =
          (calls[i].after m).fileView := by
        rw [final_eq_foldl, hsteps i _ hcall, fileView_after]
      rw [pick, List.filterMap_cons_some hcall, hserial, final_append, hfirst]
      exact ih (fun j hj => horder j (by simp [hj])) _

theorem tracked_runCalls {name : String} (calls : List MasterCall) (m : StorageMaster) :
    (m.runCalls calls).peerTracker.Tracked name ↔
      (∃ e, .update e ∈ calls ∧ e.introducedName = some name) ∨ m.peerTracker.Tracked name := by
  induction calls generalizing m with
  | nil => simp [runCalls]
  | cons call calls ih =>
      have hone : m.runCalls (call :: calls) = (call.after m).runCalls calls := rfl
      rw [hone, ih]
      cases call with
      | getView => simp [MasterCall.after]
      | update e =>
          simp only [MasterCall.after, tracked_handle, List.mem_cons, MasterCall.update.injEq,
            or_and_right, exists_or, exists_eq_left]
          exact or_left_comm.trans or_assoc.symm

theorem getView_contents {m : StorageMaster} {o : ViewOrder} (hv : m.ViewsTracked)
    (ho : m.fileView.TraversedBy o) :
    ∃ reply, m.getView o = .ok (.ok, reply) ∧ reply.contents = m.fileView.contents := by
  rw [getView, populateUris_of_tracked (tracked_populateFiles hv ho)]
  exact ⟨_, rfl, (contents_populateUris _ _).trans (contents_populateFiles ho)⟩

/-! ## The order of a run -/

theorem changedManagers_eq (a : Action) :
    a.changedManagers = (MasterThread.changeUpdates a).filterMap TableUpdate.managerName := by
  cases a <;> rfl

theorem mem_updates_of_changed {e : MasterRequest} {name : String} (h : name ∈ e.changedNames) :
    ∃ request, e = .storageChange request ∧ ∃ u ∈ e.updates, u.managerName = some name := by
  cases e with
  | introduce peer request => simp [MasterRequest.changedNames, MasterRequest.actions] at h
  | storageChange request =>
      obtain ⟨a, ha, hname⟩ := List.mem_flatMap.mp h
      rw [changedManagers_eq] at hname
      obtain ⟨u, hu, hun⟩ := List.mem_filterMap.mp hname
      exact ⟨request, rfl, u, List.mem_flatMap.mpr ⟨a, ha, hu⟩, hun⟩

theorem introduced_of_addManager {e : MasterRequest} {name : String}
    (h : .addManager name ∈ e.updates) : e.introducedName = some name := by
  cases e with
  | storageChange request =>
      obtain ⟨a, _, ha⟩ := List.mem_flatMap.mp h
      cases a <;> simp [MasterThread.changeUpdates] at ha
  | introduce peer request =>
      cases request with
      | notSet => simp [MasterRequest.updates, MasterThread.introduceUpdates] at h
      | storageClient i => simp [MasterRequest.updates, MasterThread.introduceUpdates] at h
      | storageManager i =>
          have hname : name = generateName (.storageManager i) := by
            simpa [MasterRequest.updates, MasterThread.introduceUpdates] using h
          exact congrArg some hname.symm

/-- Resetting a manager's entry conflicts with the updates of storage changes
that access it. -/
theorem conflicts_addManager {request : StorageChangeRequest} {u : TableUpdate} {name : String}
    (hu : u ∈ (MasterRequest.storageChange request).updates) (hname : u.managerName = some name) :
    (ViewStep.update (.addManager name)).Conflicts (.update u) := by
  cases u with
  | addPeer => cases hname
  | addManager n =>
      have hintro := introduced_of_addManager hu
      cases hintro
  | addFileToManager n key => exact (Option.some.inj hname).symm
  | removeFileFromManager n key => exact (Option.some.inj hname).symm

variable {m : StorageMaster} {calls : List MasterCall} {l : List (ℕ × ViewStep)} {order : List ℕ}

/-- In an order that keeps conflicting steps as they came, storage changes are
about known peers. -/
theorem tracked_before (hv : m.ViewsTracked) (hnames : NamesIntroduced m calls l)
    (hsteps : ∀ i call, calls[i]? = some call → (stepsOf i l).map Prod.snd = call.viewSteps)
    (hbound : ∀ e ∈ l, e.1 < calls.length) (hperm : order.Perm (List.range calls.length))
    (hpair : order.Pairwise fun a b => ¬ Precedes ViewStep.Conflicts l b a)
    {pre post : List ℕ} {i : ℕ} (horder : order = pre ++ i :: post) {e : MasterRequest}
    (hcall : calls[i]? = some (.update e)) {name : String} (hname : name ∈ e.changedNames) :
    (m.runCalls (pick calls pre)).peerTracker.Tracked name := by
  obtain ⟨request, rfl, u, hu, hun⟩ := mem_updates_of_changed hname
  have hmem : (i, ViewStep.update u) ∈ l := by
    have hstep : ViewStep.update u ∈ (stepsOf i l).map Prod.snd := by
      rw [hsteps i _ hcall]
      exact List.mem_map_of_mem hu
    obtain ⟨⟨j, s⟩, hj, rfl⟩ := List.mem_map.mp hstep
    obtain ⟨hmem, rfl⟩ := mem_stepsOf.mp hj
    exact hmem
  obtain ⟨l₁, l₂, rfl⟩ := List.append_of_mem hmem
  rw [tracked_runCalls]
  rcases hnames l₁ (i, .update u) ⟨l₂, by simp⟩ request name hcall hun with hfirst | ⟨j, hj⟩
  · exact .inr (hv name hfirst)
  · -- the introduction precedes the storage change, so it is before it in the order
    have hjl : (j, ViewStep.update (.addManager name)) ∈ l₁ ++ (i, .update u) :: l₂ :=
      List.mem_append.mpr (.inl hj)
    have hjlt := hbound _ hjl
    have hjcall := List.getElem?_eq_getElem hjlt
    have hadd : ViewStep.update (.addManager name) ∈ calls[j].viewSteps := by
      rw [← hsteps j _ hjcall]
      exact List.mem_map.mpr ⟨_, mem_stepsOf.mpr ⟨hjl, rfl⟩, rfl⟩
    obtain ⟨e', he', hadd'⟩ : ∃ e', calls[j] = .update e' ∧ .addManager name ∈ e'.updates := by
      cases hc : calls[j] with
      | getView => simp [hc, MasterCall.viewSteps] at hadd
      | update e' => exact ⟨e', rfl, by simpa [hc, MasterCall.viewSteps] using hadd⟩
    have hintro := introduced_of_addManager hadd'
    have hji : j ≠ i := by
      rintro rfl
      rw [hjcall, he', Option.some.injEq, MasterCall.update.injEq] at hcall
      subst hcall
      cases hintro
    have hprec : Precedes ViewStep.Conflicts (l₁ ++ (i, .update u) :: l₂) j i :=
      ⟨hji, _, _, (List.singleton_sublist.mpr hj).append
        (List.singleton_sublist.mpr (by simp)), conflicts_addManager hu hun⟩
    have hjorder : j ∈ order := hperm.mem_iff.mpr (List.mem_range.mpr hjlt)
    subst horder
    have hjpre : j ∈ pre := by
      rcases List.mem_append.mp hjorder with hpre | hrest
      · exact hpre
      · have hlater := (List.mem_cons.mp hrest).resolve_left hji
        have htail := List.pairwise_cons.mp (List.pairwise_append.mp hpair).2.1
        exact absurd hprec (htail.1 j hlater)
    exact .inl ⟨e', List.mem_filterMap.mpr ⟨j, hjpre, hjcall.trans (congrArg some he')⟩, hintro⟩

theorem pick_snoc (calls : List MasterCall) (order : List ℕ) (i : ℕ) :
    pick calls (order ++ [i]) = pick calls order ++ calls[i]?.toList := by
  rw [pick, List.filterMap_append, pick]
  cases h : calls[i]? <;> simp [h]

/-- While storage changes are about known peers, the view can be served. -/
theorem viewsTracked_pick (hv : m.ViewsTracked)
    (hknown : ∀ pre i post e, order = pre ++ i :: post → calls[i]? = some (.update e) →
      ∀ name ∈ e.changedNames, (m.runCalls (pick calls pre)).peerTracker.Tracked name)
    (pre : List ℕ) {post : List ℕ} (horder : order = pre ++ post) :
    (m.runCalls (pick calls pre)).ViewsTracked := by
  induction pre using List.reverseRecOn generalizing post with
  | nil => exact hv
  | append_singleton pre i ih =>
      have hsplit : order = pre ++ i :: post := by simpa using horder
      rw [pick_snoc, runCalls, List.foldl_append]
      cases hcall : calls[i]? with
      | none => exact ih hsplit
      | some call =>
          cases call with
          | getView => exact ih hsplit
          | update e =>
              exact (viewsTracked_handle_iff (ih hsplit)).mpr (hknown pre i post e hsplit hcall)

/-- **Concurrent requests.** From a view that can be served, introductions,
storage changes of introduced managers and `GetView`s are handled at the same
time. When all of them have come to an end and conflicting steps did not go
round in a circle, handling them one at a time in some order leaves the same
view and gives the same replies to `GetView`. -/
theorem serializable_of_acyclic {es : List MasterEvent}
    {P : Pool StorageMaster (MasterThread MasterReply)} (hv : m.ViewsTracked)
    (hrun : Reaches LockedPoolStep ⟨m, calls.map MasterCall.code⟩ es P)
    (hend : ∀ e P', ¬ LockedPoolStep P e P') (hnames : NamesIntroduced m calls (schedule es))
    (hacyclic : Acyclic ViewStep.Conflicts (schedule es)) :
    ∃ order, SerializedBy m calls P order := by
  obtain ⟨hview, hknown, hlen, hbound, hphases⟩ := masterTracks_of_reaches hv hrun hnames
  -- a handler that cannot go on has replied
  have hdone : ∀ (i : ℕ) call, calls[i]? = some call → ∃ reply,
      P.threads[i]? = some (.done reply) ∧ MasterPhase P.state.peerTracker call
        ((stepsOf i (schedule es)).map Prod.snd)
        (seen ViewStep.apply ViewStep.out i m.fileView (schedule es)) (.done reply) := by
    intro i call hcall
    have hlt : i < P.threads.length := by
      rw [hlen]
      exact (List.getElem?_eq_some_iff.mp hcall).1
    have hi := List.getElem?_eq_getElem hlt
    have hphase := hphases i call _ hcall hi
    rcases hphase.progress with ⟨reply, hreply⟩ | ⟨c, m', p', hstep⟩
    · rw [hreply] at hi hphase
      exact ⟨reply, hi, hphase⟩
    · exact absurd (PoolStep.step hi hstep) (hend _ _)
  have hsteps : ∀ i call, calls[i]? = some call →
      (stepsOf i (schedule es)).map Prod.snd = call.viewSteps := by
    intro i call hcall
    obtain ⟨reply, _, hphase⟩ := hdone i call hcall
    exact hphase.of_done.1
  obtain ⟨order, hperm, hpair, hsame⟩ := exists_serial (fun s t => ViewStep.independent) hacyclic
    List.nodup_range fun e he => List.mem_range.mpr (hbound e he)
  have hlt : ∀ i ∈ order, i < calls.length := fun i hi =>
    List.mem_range.mp (hperm.mem_iff.mp hi)
  refine ⟨order, hperm, ?_, ?_⟩
  · rw [fileView_runCalls hsteps order hlt, hview]
    exact ((hsame m.fileView).1).symm
  · rintro pre i post horder hcall
    obtain ⟨_, hi, hphase⟩ := hdone i _ hcall
    obtain ⟨hmade, hread⟩ := hphase.of_done
    obtain ⟨v, reply, rfl, hseen, hshow⟩ := hread rfl
    have hpre : ∀ j ∈ pre, j < calls.length := fun j hj => hlt j (by simp [horder, hj])
    -- the snapshot is the view that the requests before this one leave
    have hsnapshot : v = (m.runCalls (pick calls pre)).fileView := by
      obtain ⟨⟨j, s⟩, hone, hs⟩ := List.map_eq_singleton_iff.mp hmade
      obtain rfl : j = i := (mem_stepsOf.mp (hone ▸ List.mem_singleton_self _)).2
      obtain rfl : s = .snapshot := hs
      have hnodup : (pre ++ j :: post).Nodup := horder ▸ hperm.nodup_iff.mpr List.nodup_range
      have hlast := (hsame m.fileView).2 j
      rw [hseen, horder, seen_serial hnodup, hone, ← fileView_runCalls hsteps pre hpre] at hlast
      simpa [ViewStep.out] using hlast
    have hknown' : (m.runCalls (pick calls pre)).ViewsTracked :=
      viewsTracked_pick hv (fun pre i post e hsplit hcall name hname =>
        tracked_before hv hnames hsteps hbound hperm hpair hsplit hcall hname) pre horder
    refine ⟨reply, hi, fun o ho => ?_⟩
    obtain ⟨reply', hreply', hshow'⟩ := getView_contents hknown' ho
    exact ⟨reply', hreply', hshow'.trans (hsnapshot ▸ hshow.symm)⟩

/-! ## Two introductions of one manager -/

section Example

def introduceWith (files : List String) : MasterCall :=
  .update (.introduce "p" (.storageManager { rpcHostname := "n", rpcPort := "1", file := files }))

def managerName : String := "manager:EPHEMERAL:MANAGED:n"

theorem update_step {m : StorageMaster} {ts : List (MasterThread MasterReply)} (i : ℕ)
    {u : TableUpdate} {k : Unit → MasterThread MasterReply}
    (hi : ts[i]? = some (.call (.update u) k)) :
    LockedPoolStep ⟨m, ts⟩ (.step i ⟨Unit, .update u⟩) ⟨u.apply m, ts.set i (k ())⟩ := by
  obtain ⟨o, ho⟩ := m.fileView.exists_traversedBy
  exact .step hi ⟨o, ho, Prog.step_call.mpr ⟨rfl, (), rfl, rfl⟩⟩

theorem ended_of_done {P : Pool StorageMaster (MasterThread MasterReply)}
    (h : ∀ p ∈ P.threads, ∃ reply, p = .done reply) (e : MasterEvent)
    (P' : Pool StorageMaster (MasterThread MasterReply)) : ¬ LockedPoolStep P e P' := by
  intro hstep
  cases hstep with
  | spawn hp => exact hp
  | step hi hone =>
      obtain ⟨reply, rfl⟩ := h _ (List.mem_of_getElem? hi)
      obtain ⟨o, _, hone⟩ := hone
      exact Prog.not_step_done hone

theorem namesIntroduced_of_no_changes {m : StorageMaster} {calls : List MasterCall}
    (h : ∀ request, .update (.storageChange request) ∉ calls) (l : List (ℕ × ViewStep)) :
    NamesIntroduced m calls l :=
  fun _ _ _ request _ hcall _ => absurd (List.mem_of_getElem? hcall) (h request)

/-- The manager introduces itself twice, with one file each time. -/
def twice : List MasterCall := [introduceWith ["a"], introduceWith ["b"]]

/-- Both introductions reset the manager's entry before either adds its file. -/
def bothReset : List MasterEvent :=
  [.step 0 ⟨_, .update (.addPeer managerName "n:1" "p")⟩,
    .step 1 ⟨_, .update (.addPeer managerName "n:1" "p")⟩,
    .step 0 ⟨_, .update (.addManager managerName)⟩, .step 1 ⟨_, .update (.addManager managerName)⟩,
    .step 0 ⟨_, .update (.addFileToManager managerName "a")⟩,
    .step 1 ⟨_, .update (.addFileToManager managerName "b")⟩]

/-- Handled one after the other, the second introduction drops the first one's
file. -/
theorem not_lists_both {order : List ℕ} (h : order.Perm (List.range twice.length)) :
    ¬ ((({} : StorageMaster).runCalls (pick twice order)).fileView.Lists managerName "a" ∧
      (({} : StorageMaster).runCalls (pick twice order)).fileView.Lists managerName "b") := by
  have hall : ∀ order ∈ (List.range 2).permutations',
      ¬ ((({} : StorageMaster).runCalls (pick twice order)).fileView.Lists managerName "a" ∧
        (({} : StorageMaster).runCalls (pick twice order)).fileView.Lists managerName "b") := by
    decide
  exact hall order (List.mem_permutations'.mpr h)

/-- The view lists both files, which no order of the two introductions gives. -/
theorem two_introductions_not_serializable :
    ({} : StorageMaster).ViewsTracked ∧ NamesIntroduced {} twice (schedule bothReset) ∧
      ∃ P, Reaches LockedPoolStep ⟨{}, twice.map MasterCall.code⟩ bothReset P ∧
        (∀ e P', ¬ LockedPoolStep P e P') ∧ ¬ ∃ order, SerializedBy {} twice P order := by
  have hrun : ∃ P, Reaches LockedPoolStep ⟨{}, twice.map MasterCall.code⟩ bothReset P ∧
      (∀ p ∈ P.threads, ∃ reply, p = .done reply) ∧
        P.state.fileView.Lists managerName "a" ∧ P.state.fileView.Lists managerName "b" := by
    refine ⟨_, .cons (update_step 0 rfl) (.cons (update_step 1 rfl) (.cons (update_step 0 rfl)
      (.cons (update_step 1 rfl) (.cons (update_step 0 rfl) (.cons (update_step 1 rfl) .nil))))),
      ?_, by decide, by decide⟩
    have hdone : ∀ p ∈ ([.done (.introduce .ok ⟨managerName⟩),
        .done (.introduce .ok ⟨managerName⟩)] : List (MasterThread MasterReply)),
          ∃ reply, p = .done reply := by simp
    exact hdone
  obtain ⟨P, hP, hdone, hlists⟩ := hrun
  refine ⟨fun name hname => absurd hname Finmap.notMem_empty,
    namesIntroduced_of_no_changes (by simp [twice, introduceWith]) _, P, hP,
    ended_of_done hdone, ?_⟩
  rintro ⟨order, hperm, hview, _⟩
  rw [← hview] at hlists
  exact not_lists_both hperm hlists

/-- An introduction, a storage change and a `GetView`. -/
def putMeanwhile : List MasterCall :=
  [introduceWith ["a"],
    .update (.storageChange { storageChange := [.put ⟨"b", { name := managerName }⟩] }), .getView]

/-- The put comes between two steps of the introduction. -/
def putBetween : List MasterEvent :=
  [.step 0 ⟨_, .update (.addPeer managerName "n:1" "p")⟩,
    .step 0 ⟨_, .update (.addManager managerName)⟩,
    .step 1 ⟨_, .update (.addFileToManager managerName "b")⟩,
    .step 0 ⟨_, .update (.addFileToManager managerName "a")⟩,
    .step 2 ⟨_, .populateFiles {}⟩,
    .step 2 ⟨_, .populateUris { view := [{ name := managerName, key := ["a", "b"] }] }⟩]

def bothFiles : ViewOrder := ⟨[managerName], fun _ => ["a", "b"]⟩

theorem serializable_of_acyclic_putBetween :
    ∃ P, Reaches LockedPoolStep ⟨{}, putMeanwhile.map MasterCall.code⟩ putBetween P ∧
      ∃ order, SerializedBy {} putMeanwhile P order := by
  have hrun : ∃ P, Reaches LockedPoolStep ⟨{}, putMeanwhile.map MasterCall.code⟩ putBetween P ∧
      ∀ p ∈ P.threads, ∃ reply, p = .done reply := by
    refine ⟨_, .cons (update_step 0 rfl) (.cons (update_step 0 rfl) (.cons (update_step 1 rfl)
      (.cons (update_step 0 rfl) (.cons (.step rfl ⟨bothFiles, by decide,
        Prog.step_call.mpr ⟨rfl, _, rfl, rfl⟩⟩) (.cons (.step rfl ⟨bothFiles, by decide,
          Prog.step_call.mpr ⟨rfl, _, rfl, rfl⟩⟩) .nil))))), ?_⟩
    have hdone : ∀ p ∈ ([.done (.introduce .ok ⟨managerName⟩), .done (.storageChange .ok),
        .done (.getView .ok ⟨[⟨managerName, "n:1", ["a", "b"]⟩], []⟩)] :
          List (MasterThread MasterReply)), ∃ reply, p = .done reply := by simp
    exact hdone
  obtain ⟨P, hP, hdone⟩ := hrun
  refine ⟨P, hP, serializable_of_acyclic (fun name hname => absurd hname Finmap.notMem_empty) hP
    (ended_of_done hdone) ?_ (acyclic_of_rank id (by decide))⟩
  -- only the third step is one of a storage change
  have hnames : NamesIntroduced {} putMeanwhile (schedule putBetween) :=
    everyStep_cons.mpr ⟨nofun, everyStep_cons.mpr ⟨nofun, everyStep_cons.mpr
      ⟨fun _ name _ hname => .inr ⟨0, by cases hname; simp⟩, everyStep_cons.mpr ⟨nofun,
        everyStep_cons.mpr ⟨nofun, everyStep_nil⟩⟩⟩⟩⟩
  exact hnames

end Example

end StorageMaster

end ProgrammableCaching
