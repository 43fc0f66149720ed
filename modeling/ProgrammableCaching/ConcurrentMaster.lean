import ProgrammableCaching.Library.Serializability
import ProgrammableCaching.MasterThreads

/-! Requests that the storage master handles at the same time. The locks protect
single updates, so the handlers interleave: which steps on the view conflict, and
what a run has done to the view and to each handler. -/

namespace ProgrammableCaching

open UnorderedMap Pools Runs Serializability

/-! ## What the steps do to the view -/

/-- A step as far as the view is concerned. -/
inductive ViewStep
  | update (u : TableUpdate)
  | snapshot
  deriving DecidableEq, Repr

namespace ViewStep

def apply : ViewStep → StorageFileView → StorageFileView
  | update u, v => u.onView v
  | snapshot, v => v

/-- Only a snapshot sees the view. -/
def out : ViewStep → StorageFileView → Option StorageFileView
  | update _, _ => none
  | snapshot, v => some v

/-- The order of the two steps matters: one resets a manager's entry and the
other accesses a key of that manager, one adds and the other removes the same
key of one manager, or one reads the view that the other writes. -/
def Conflicts : ViewStep → ViewStep → Prop
  | update (.addManager n), update (.addFileToManager n' _)
  | update (.addManager n), update (.removeFileFromManager n' _)
  | update (.addFileToManager n' _), update (.addManager n)
  | update (.removeFileFromManager n' _), update (.addManager n) => n = n'
  | update (.addFileToManager n k), update (.removeFileFromManager n' k')
  | update (.removeFileFromManager n k), update (.addFileToManager n' k') => n = n' ∧ k = k'
  | update u, snapshot
  | snapshot, update u => u.managerName ≠ none
  | _, _ => False

instance (s t : ViewStep) : Decidable (s.Conflicts t) := by
  unfold Conflicts
  split <;> infer_instance

end ViewStep

namespace ManagerFileView

variable (f : ManagerFileView) {k k' : String}

theorem addFile_comm : (f.addFile k).addFile k' = (f.addFile k').addFile k := by
  simp only [addFile, mk.injEq]
  refine Finmap.ext_lookup fun x => ?_
  by_cases hx : x = k <;> by_cases hx' : x = k' <;> simp [hx, hx']

theorem removeFile_comm : (f.removeFile k).removeFile k' = (f.removeFile k').removeFile k := by
  simp only [removeFile, mk.injEq]
  exact Finmap.erase_erase

theorem removeFile_addFile (h : k ≠ k') :
    (f.addFile k).removeFile k' = (f.removeFile k').addFile k := by
  simp only [addFile, removeFile, mk.injEq]
  refine Finmap.ext_lookup fun x => ?_
  by_cases hx : x = k
  · subst hx
    simp [h]
  · simp [hx]

end ManagerFileView

namespace TableUpdate

/-- What the update makes of the entry that it accesses. -/
def onEntry (f : ManagerFileView) : TableUpdate → ManagerFileView
  | addPeer _ _ _ => f
  | addManager _ => {}
  | addFileToManager _ key => f.addFile key
  | removeFileFromManager _ key => f.removeFile key

theorem onView_of_none {u : TableUpdate} (h : u.managerName = none) (v : StorageFileView) :
    u.onView v = v := by
  cases u <;> first | rfl | cases h

theorem onView_of_some {u : TableUpdate} {name : String} (h : u.managerName = some name)
    (v : StorageFileView) : u.onView v = ⟨modify v.managerViews name {} fun f => u.onEntry f⟩ := by
  cases u <;> cases h <;> rfl

theorem onEntry_comm {u u' : TableUpdate} (hname : u.managerName = u'.managerName)
    (h : ¬ (ViewStep.update u).Conflicts (.update u')) (f : ManagerFileView) :
    u'.onEntry (u.onEntry f) = u.onEntry (u'.onEntry f) := by
  cases u with
  | addPeer => cases u' <;> rfl
  | addManager name =>
      cases u' with
      | addPeer => cases hname
      | addManager => rfl
      | addFileToManager => exact absurd (Option.some.inj hname) h
      | removeFileFromManager => exact absurd (Option.some.inj hname) h
  | addFileToManager name key =>
      cases u' with
      | addPeer => cases hname
      | addManager => exact absurd (Option.some.inj hname).symm h
      | addFileToManager => exact f.addFile_comm
      | removeFileFromManager name' key' =>
          exact f.removeFile_addFile fun heq => h ⟨Option.some.inj hname, heq⟩
  | removeFileFromManager name key =>
      cases u' with
      | addPeer => cases hname
      | addManager => exact absurd (Option.some.inj hname).symm h
      | removeFileFromManager => exact f.removeFile_comm
      | addFileToManager name' key' =>
          exact (f.removeFile_addFile fun heq => h ⟨Option.some.inj hname, heq.symm⟩).symm

theorem onView_comm {u u' : TableUpdate} (h : ¬ (ViewStep.update u).Conflicts (.update u'))
    (v : StorageFileView) : u'.onView (u.onView v) = u.onView (u'.onView v) := by
  cases hu : u.managerName with
  | none => simp only [onView_of_none hu]
  | some name =>
      cases hu' : u'.managerName with
      | none => simp only [onView_of_none hu']
      | some name' =>
          simp only [onView_of_some hu, onView_of_some hu', StorageFileView.mk.injEq]
          by_cases hne : name = name'
          · subst hne
            simp only [modify_modify, onEntry_comm (hu.trans hu'.symm) h]
          · exact modify_comm hne ..

end TableUpdate

theorem ViewStep.independent {s t : ViewStep} (h : ¬ s.Conflicts t) :
    Independent apply out s t := by
  cases s with
  | snapshot =>
      cases t with
      | snapshot => exact ⟨fun _ => rfl, fun _ => rfl, fun _ => rfl⟩
      | update u =>
          have hu : u.managerName = none := by simpa [Conflicts] using h
          have hsame : ∀ v, apply (update u) v = v := TableUpdate.onView_of_none hu
          exact ⟨fun _ => rfl, fun v => congrArg _ (hsame v), fun _ => rfl⟩
  | update u =>
      cases t with
      | update u' => exact ⟨TableUpdate.onView_comm h, fun _ => rfl, fun _ => rfl⟩
      | snapshot =>
          have hu : u.managerName = none := by simpa [Conflicts] using h
          have hsame : ∀ v, apply (update u) v = v := TableUpdate.onView_of_none hu
          exact ⟨fun _ => rfl, fun _ => rfl, fun v => congrArg _ (hsame v)⟩

/-! ## Replies -/

/-- What a reply shows: the managers, each with its set of keys. -/
def GetViewReply.contents (reply : GetViewReply) : Set (String × Set String) :=
  {p | ∃ view ∈ reply.view, p = (view.name, {key | key ∈ view.key})}

def StorageFileView.contents (v : StorageFileView) : Set (String × Set String) :=
  {p | ∃ view, v.managerViews.lookup p.1 = some view ∧ p.2 = {key | key ∈ view.fileKeys}}

theorem contents_populateFiles {v : StorageFileView} {o : ViewOrder} (ho : v.TraversedBy o) :
    (v.populateViewReply o {}).contents = v.contents := by
  ext ⟨name, keys⟩
  simp only [GetViewReply.contents, StorageFileView.contents, StorageFileView.populateViewReply,
    List.nil_append, Set.mem_ofPred_eq, List.mem_map, Prod.mk.injEq]
  constructor
  · rintro ⟨_, ⟨⟨name', view⟩, hmem, rfl⟩, rfl, rfl⟩
    have hview := (mem_traverse ho.1 _ _).mp hmem
    refine ⟨view, hview, Set.ext fun key => ?_⟩
    simp only [keys_traverse (ho.2 _ _ hview), Set.mem_ofPred_eq]
    exact (ho.2 _ _ hview).2 key
  · rintro ⟨view, hview, rfl⟩
    refine ⟨_, ⟨⟨name, view⟩, (mem_traverse ho.1 _ _).mpr hview, rfl⟩, rfl, Set.ext fun key => ?_⟩
    simp only [keys_traverse (ho.2 _ _ hview), Set.mem_ofPred_eq]
    exact ((ho.2 _ _ hview).2 key).symm

theorem contents_populateUris (reply : GetViewReply) (uriOf : String → String) :
    GetViewReply.contents
      { reply with view := reply.view.map fun v => { v with uri := uriOf v.name } } =
      reply.contents := by
  ext p
  simp [GetViewReply.contents]

theorem tracked_populateFiles {m : StorageMaster} {o : ViewOrder} (h : m.ViewsTracked)
    (ho : m.fileView.TraversedBy o) :
    ∀ view ∈ (m.fileView.populateViewReply o {}).view, m.peerTracker.Tracked view.name := by
  intro view hview
  simp only [StorageFileView.populateViewReply, List.nil_append, List.mem_map] at hview
  obtain ⟨p, hp, rfl⟩ := hview
  exact h p.1 (mem_of_lookup ((mem_traverse ho.1 p.1 p.2).mp hp))

theorem handle_populateUris {m : StorageMaster} {reply : GetViewReply} (o : ViewOrder)
    (h : ∀ view ∈ reply.view, m.peerTracker.Tracked view.name) :
    LockedStep.handle o (.populateUris reply) m = .ok
      ({ reply with view := reply.view.map fun v => { v with uri := m.peerTracker.uriOf v.name } },
        m) := by
  simp only [LockedStep.handle, StorageMaster.populateUris_of_tracked h]
  rfl

theorem StorageFileView.exists_traversedBy (v : StorageFileView) : ∃ o, v.TraversedBy o := by
  refine ⟨⟨v.managerViews.keys.toList,
    fun name => (entry v.managerViews name {}).fileKeys.keys.toList⟩, enumerates_keys _,
    fun name view hview => ?_⟩
  simp only [entry_of_lookup _ hview]
  exact enumerates_keys _

/-! ## Runs -/

abbrev MasterEvent := Pools.Event (MasterThread MasterReply) (Σ β, LockedStep β)

def LockedStep.viewStep {β : Type} : LockedStep β → Option ViewStep
  | update u => some (.update u)
  | populateFiles _ => some .snapshot
  | populateUris _ => none

/-- The steps on the view, each with the number of its request. -/
def schedule (es : List MasterEvent) : List (ℕ × ViewStep) :=
  es.flatMap fun
    | .step i c => c.2.viewStep.toList.map fun s => (i, s)
    | .spawn _ => []

/-- All requests are there from the start, and one of them at a time takes its
next step. -/
abbrev LockedPoolStep :
    Pool StorageMaster (MasterThread MasterReply) → MasterEvent →
      Pool StorageMaster (MasterThread MasterReply) → Prop :=
  PoolStep (fun _ => False) MasterThread.Step

def ViewStep.managerName : ViewStep → Option String
  | update u => u.managerName
  | snapshot => none

/-- Storage changes access only managers of the first view and managers whose
entry an introduction has made before. -/
def NamesIntroduced (m : StorageMaster) (calls : List MasterCall) (l : List (ℕ × ViewStep)) :
    Prop :=
  EveryStep (fun l e => ∀ request name, calls[e.1]? = some (.update (.storageChange request)) →
    e.2.managerName = some name →
      name ∈ m.fileView.managerViews ∨ ∃ j, (j, .update (.addManager name)) ∈ l) l

/-! ## What a handler has done and what is left of it -/

/-- Every update of the list is about a peer that is known by then. -/
def Announced (t : PeerTracker) : List TableUpdate → Prop
  | [] => True
  | u :: us => (∀ name, u.managerName = some name → t.Tracked name) ∧ Announced (u.onTracker t) us

/-- The second half of `GetView`. -/
def fillInUris (reply : GetViewReply) : MasterThread MasterReply :=
  .call (.populateUris reply) fun reply => .done (.getView .ok reply)

/-- The handler of a request has made the steps `made` on the view, which have
seen `read`, and the last argument is left of it. -/
inductive MasterPhase (t : PeerTracker) :
    MasterCall → List ViewStep → List (Option StorageFileView) → MasterThread MasterReply → Prop
  | update {e : MasterRequest} {past rest : List TableUpdate}
      {read : List (Option StorageFileView)} :
      e.updates = past ++ rest → Announced t rest ∨ (∃ request, e = .storageChange request) →
        MasterPhase t (.update e) (past.map .update) read (MasterThread.script rest e.reply)
  | unread : MasterPhase t .getView [] [] MasterCall.getView.code
  | read {v : StorageFileView} {reply : GetViewReply} :
      reply.contents = v.contents → (∀ view ∈ reply.view, t.Tracked view.name) →
        MasterPhase t .getView [.snapshot] [some v] (fillInUris reply)
  | replied {v : StorageFileView} {reply : GetViewReply} :
      reply.contents = v.contents →
        MasterPhase t .getView [.snapshot] [some v] (.done (.getView .ok reply))

theorem code_getView : MasterCall.getView.code = .call (.populateFiles {}) fillInUris := rfl

namespace TableUpdate

theorem tracked_onTracker {u : TableUpdate} {t : PeerTracker} {name : String} :
    (u.onTracker t).Tracked name ↔ (∃ uri conn, u = addPeer name uri conn) ∨ t.Tracked name := by
  cases u <;> simp [onTracker, PeerTracker.addPeer, PeerTracker.Tracked, eq_comm]

theorem mem_onView {u : TableUpdate} {v : StorageFileView} {name : String} :
    name ∈ (u.onView v).managerViews ↔ u.managerName = some name ∨ name ∈ v.managerViews := by
  cases u <;> simp [onView, managerName, eq_comm]

end TableUpdate

theorem Announced.mono {us : List TableUpdate} {t t' : PeerTracker} (h : Announced t us)
    (hsub : ∀ name, t.Tracked name → t'.Tracked name) : Announced t' us := by
  induction us generalizing t t' with
  | nil => trivial
  | cons u us ih =>
      refine ⟨fun name hname => hsub name (h.1 name hname), ih h.2 fun name hname => ?_⟩
      exact TableUpdate.tracked_onTracker.mpr
        ((TableUpdate.tracked_onTracker.mp hname).imp_right (hsub name))

theorem announced_of_tracked {us : List TableUpdate} {t : PeerTracker}
    (h : ∀ u ∈ us, ∀ name, u.managerName = some name → t.Tracked name) : Announced t us := by
  induction us generalizing t with
  | nil => trivial
  | cons u us ih =>
      refine ⟨h u (by simp), ih fun u' hu' name hname => ?_⟩
      exact TableUpdate.tracked_onTracker.mpr (.inr (h u' (by simp [hu']) name hname))

/-- `Introduce` makes its peer known before it accesses the view. -/
theorem announced_introduce (t : PeerTracker) (peer : String) (request : IntroduceRequest) :
    Announced t (MasterRequest.introduce peer request).updates := by
  cases request with
  | notSet => trivial
  | storageClient i => exact ⟨fun _ hname => absurd hname nofun, trivial⟩
  | storageManager i =>
      refine ⟨fun _ hname => absurd hname nofun, announced_of_tracked fun u hu name hname => ?_⟩
      have hu' : u.managerName = some (StorageMaster.generateName (.storageManager i)) := by
        rcases List.mem_cons.mp hu with rfl | hfile
        · rfl
        · obtain ⟨key, _, rfl⟩ := List.mem_map.mp hfile
          rfl
      obtain rfl := Option.some.inj (hu'.symm.trans hname)
      exact TableUpdate.tracked_onTracker.mpr (.inl ⟨_, _, rfl⟩)

section Phase

variable {t t' : PeerTracker} {m m' : StorageMaster} {call : MasterCall} {made : List ViewStep}
  {read : List (Option StorageFileView)} {p p' : MasterThread MasterReply} {c : Σ β, LockedStep β}

theorem MasterPhase.start (t : PeerTracker) (call : MasterCall) :
    MasterPhase t call [] [] call.code := by
  cases call with
  | getView => exact .unread
  | update e =>
      rw [MasterThread.code_update]
      refine @MasterPhase.update t e [] _ _ rfl ?_
      cases e with
      | introduce peer request => exact .inl (announced_introduce t peer request)
      | storageChange request => exact .inr ⟨request, rfl⟩

theorem MasterPhase.mono (h : MasterPhase t call made read p)
    (hsub : ∀ name, t.Tracked name → t'.Tracked name) : MasterPhase t' call made read p := by
  cases h with
  | update hsplit hann => exact .update hsplit (hann.imp_left fun ha => ha.mono hsub)
  | unread => exact .unread
  | read hshow hknown => exact .read hshow fun view hview => hsub _ (hknown view hview)
  | replied hshow => exact .replied hshow

/-- What a step of a handler does to the tables, and how far the handler has
come then. -/
theorem MasterPhase.step (h : MasterPhase m.peerTracker call made read p) (hv : m.ViewsTracked)
    (hnamed : ∀ request, call = .update (.storageChange request) →
      ∀ s name, c.2.viewStep = some s → s.managerName = some name → m.peerTracker.Tracked name)
    (hstep : MasterThread.Step m p c m' p') :
    (∀ name, m.peerTracker.Tracked name → m'.peerTracker.Tracked name) ∧ m'.ViewsTracked ∧
      MasterPhase m'.peerTracker call (made ++ c.2.viewStep.toList)
        (read ++ c.2.viewStep.toList.map fun s => s.out m.fileView) p' := by
  obtain ⟨o, ho, hstep⟩ := hstep
  cases h with
  | @update e past rest _ hsplit hann =>
      cases rest with
      | nil => exact absurd hstep Prog.not_step_done
      | cons u rest =>
          obtain ⟨rfl, _, heq, rfl⟩ := Prog.step_call.mp hstep
          cases heq
          have hname : ∀ name, u.managerName = some name → m.peerTracker.Tracked name := by
            intro name hn
            rcases hann with ha | ⟨request, rfl⟩
            · exact ha.1 name hn
            · exact hnamed request rfl _ name rfl hn
          have hmono : ∀ name, m.peerTracker.Tracked name →
              (u.onTracker m.peerTracker).Tracked name :=
            fun name hn => TableUpdate.tracked_onTracker.mpr (.inr hn)
          refine ⟨hmono, fun name hn => ?_, ?_⟩
          · rcases TableUpdate.mem_onView.mp hn with hu | hold
            · exact hmono name (hname name hu)
            · exact hmono name (hv name hold)
          · have hpast : past.map ViewStep.update ++ [.update u] =
                (past ++ [u]).map ViewStep.update := by simp
            rw [LockedStep.viewStep, Option.toList_some, hpast]
            exact .update (by simp [hsplit]) (hann.imp_left And.right)
  | unread =>
      rw [code_getView] at hstep
      obtain ⟨rfl, _, heq, rfl⟩ := Prog.step_call.mp hstep
      cases heq
      exact ⟨fun _ hn => hn, hv,
        .read (contents_populateFiles ho) (tracked_populateFiles hv ho)⟩
  | @read v reply hshow hknown =>
      obtain ⟨rfl, _, heq, rfl⟩ := Prog.step_call.mp hstep
      rw [handle_populateUris o hknown] at heq
      cases heq
      exact ⟨fun _ hn => hn, hv, .replied ((contents_populateUris reply _).trans hshow)⟩
  | replied => exact absurd hstep Prog.not_step_done

/-- A handler that has not replied can take a step. -/
theorem MasterPhase.progress (h : MasterPhase m.peerTracker call made read p) :
    (∃ reply, p = .done reply) ∨ ∃ c m' p', MasterThread.Step m p c m' p' := by
  obtain ⟨o, ho⟩ := m.fileView.exists_traversedBy
  cases h with
  | @update e past rest _ hsplit hann =>
      cases rest with
      | nil => exact .inl ⟨_, rfl⟩
      | cons u rest => exact .inr ⟨_, _, _, o, ho, Prog.step_call.mpr ⟨rfl, _, rfl, rfl⟩⟩
  | unread => exact .inr ⟨_, _, _, o, ho, Prog.step_call.mpr ⟨rfl, _, rfl, rfl⟩⟩
  | @read v reply hshow hknown =>
      exact .inr ⟨_, _, _, o, ho,
        Prog.step_call.mpr ⟨rfl, _, handle_populateUris o hknown, rfl⟩⟩
  | replied => exact .inl ⟨_, rfl⟩

end Phase

/-! ## Whole runs -/

/-- Where a run has come to: the view after the steps made so far, and each
handler with its share of them. -/
structure MasterTracks (m : StorageMaster) (calls : List MasterCall) (es : List MasterEvent)
    (P : Pool StorageMaster (MasterThread MasterReply)) : Prop where
  view : P.state.fileView = final ViewStep.apply m.fileView (schedule es)
  known : P.state.ViewsTracked
  length : P.threads.length = calls.length
  bounded : ∀ e ∈ schedule es, e.1 < calls.length
  phases : ∀ (i : ℕ) call p, calls[i]? = some call → P.threads[i]? = some p →
    MasterPhase P.state.peerTracker call ((stepsOf i (schedule es)).map Prod.snd)
      (seen ViewStep.apply ViewStep.out i m.fileView (schedule es)) p

theorem schedule_step (es : List MasterEvent) (i : ℕ) (c : Σ β, LockedStep β) :
    schedule (es ++ [.step i c]) = schedule es ++ c.2.viewStep.toList.map fun s => (i, s) := by
  simp [schedule]

theorem mem_final {l : List (ℕ × ViewStep)} {v : StorageFileView} {name : String} :
    name ∈ (final ViewStep.apply v l).managerViews ↔
      (∃ e ∈ l, e.2.managerName = some name) ∨ name ∈ v.managerViews := by
  induction l generalizing v with
  | nil => simp
  | cons e l ih =>
      rw [final_cons, ih]
      obtain ⟨i, s⟩ := e
      cases s with
      | snapshot => simp [ViewStep.apply, ViewStep.managerName]
      | update u =>
          simp only [ViewStep.apply, TableUpdate.mem_onView, List.mem_cons, exists_eq_or_imp,
            ViewStep.managerName, or_assoc]
          exact or_left_comm

theorem NamesIntroduced.init {m : StorageMaster} {calls : List MasterCall}
    {l l' : List (ℕ × ViewStep)} (h : NamesIntroduced m calls (l ++ l')) :
    NamesIntroduced m calls l :=
  fun es e hpre => h es e (hpre.trans (List.prefix_append l l'))

/-- A step of a handler does to the view what its step on the view does. -/
theorem fileView_step {m m' : StorageMaster} {p p' : MasterThread MasterReply}
    {c : Σ β, LockedStep β} (h : MasterThread.Step m p c m' p') :
    m'.fileView = c.2.viewStep.toList.foldl (fun v s => s.apply v) m.fileView := by
  obtain ⟨o, _, k, b, _, hc, _⟩ := h
  obtain ⟨β, c⟩ := c
  cases c with
  | update u =>
      cases hc
      rfl
  | populateFiles reply =>
      cases hc
      rfl
  | populateUris reply =>
      obtain ⟨r, _, hr⟩ := exceptBind_ok.mp hc
      cases hr
      rfl

/-- The view has seen the steps of the schedule, which are steps of the handlers that were
there from the start. -/
theorem view_of_reaches {m : StorageMaster} {ps : List (MasterThread MasterReply)}
    {es : List MasterEvent} {P : Pool StorageMaster (MasterThread MasterReply)}
    (h : Reaches LockedPoolStep ⟨m, ps⟩ es P) :
    P.state.fileView = final ViewStep.apply m.fileView (schedule es) ∧
      P.threads.length = ps.length ∧ ∀ e ∈ schedule es, e.1 < ps.length := by
  induction h with
  | nil => exact ⟨rfl, rfl, fun e he => by simp [schedule] at he⟩
  | snoc _ hstep ih =>
      cases hstep with
      | spawn hp => exact absurd hp id
      | step hi hone =>
          obtain ⟨hview, hlen, hbound⟩ := ih
          refine ⟨?_, by simpa using hlen, ?_⟩
          · rw [schedule_step, final_append, ← hview, final_eq_foldl, fileView_step hone]
            simp [Function.comp_def]
          · rw [schedule_step]
            intro e he
            rcases List.mem_append.mp he with hold | hnew
            · exact hbound e hold
            · obtain ⟨s, _, rfl⟩ := List.mem_map.mp hnew
              rw [← hlen]
              exact (List.getElem?_eq_some_iff.mp hi).1

theorem masterTracks_of_reaches {m : StorageMaster} {calls : List MasterCall}
    {es : List MasterEvent} {P : Pool StorageMaster (MasterThread MasterReply)}
    (hv : m.ViewsTracked) (h : Reaches LockedPoolStep ⟨m, calls.map MasterCall.code⟩ es P)
    (hnames : NamesIntroduced m calls (schedule es)) : MasterTracks m calls es P := by
  obtain ⟨hview, hlen, hbound⟩ := view_of_reaches h
  rw [List.length_map] at hlen hbound
  suffices htracks : P.state.ViewsTracked ∧
      ∀ (i : ℕ) call p, calls[i]? = some call → P.threads[i]? = some p →
        MasterPhase P.state.peerTracker call ((stepsOf i (schedule es)).map Prod.snd)
          (seen ViewStep.apply ViewStep.out i m.fileView (schedule es)) p from
    ⟨hview, htracks.1, hlen, hbound, htracks.2⟩
  clear hview hlen hbound
  induction h with
  | nil =>
      refine ⟨hv, fun i call p hi hp => ?_⟩
      simp only [List.getElem?_map, hi, Option.map_some, Option.some.injEq] at hp
      subst hp
      exact MasterPhase.start _ call
  | @snoc es e P P' hreach hstep ih =>
      cases hstep with
      | spawn hp => exact absurd hp id
      | @step m₁ m₂ ts i p p' c hi hone =>
          rw [schedule_step] at hnames
          obtain ⟨hknown, hphases⟩ := ih hnames.init
          obtain ⟨hview, hlen, _⟩ := view_of_reaches hreach
          have hlt : i < calls.length := by
            rw [← List.length_map MasterCall.code, ← hlen]
            exact (List.getElem?_eq_some_iff.mp hi).1
          have hcall := List.getElem?_eq_getElem hlt
          have hphase := hphases i _ p hcall hi
          have hnamed : ∀ request, calls[i] = .update (.storageChange request) →
              ∀ s name, c.2.viewStep = some s → s.managerName = some name →
                m₁.peerTracker.Tracked name := by
            intro request hreq s name hs hname
            rw [hs] at hnames
            refine hknown name ?_
            rw [hview, mem_final]
            have hgood := (everyStep_snoc.mp hnames).2 request name
              (hcall.trans (congrArg some hreq)) hname
            rcases hgood with hfirst | ⟨j, hj⟩
            · exact .inr hfirst
            · exact .inl ⟨_, hj, rfl⟩
          obtain ⟨hmono, hknown', hphase'⟩ := hphase.step hknown hnamed hone
          refine ⟨hknown', fun j call q hj hq => ?_⟩
          rw [schedule_step, stepsOf_append, List.map_append, made_toList, seen_append, ← hview,
            seen_toList]
          rcases getElem?_set_cases hi hq with ⟨rfl, rfl⟩ | ⟨hji, hold⟩
          · rw [if_pos rfl, if_pos rfl]
            exact Option.some.inj (hcall.symm.trans hj) ▸ hphase'
          · rw [if_neg (Ne.symm hji), if_neg (Ne.symm hji), List.append_nil, List.append_nil]
            exact (hphases j call q hj hold).mono hmono

end ProgrammableCaching
