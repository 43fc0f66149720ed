import ProgrammableCaching.ViewRuns

/-! The lookups of persistent managers. The table of files is only ever added to, and by managers
of every storage but the ephemeral one, so an answer of it may be of another storage or out of
date. -/

namespace ProgrammableCaching

open UnorderedMap LastWriter Runs

/-- The entry lists the file, and its manager is not taken for an ephemeral one. -/
def ManagerView.Lists (storage : StorageName) (file : String) (view : ManagerView) : Prop :=
  ¬ NamesStorage view.name storage ∧ file ∈ view.key

instance (storage : StorageName) (file : String) (view : ManagerView) :
    Decidable (view.Lists storage file) :=
  inferInstanceAs (Decidable (_ ∧ _))

theorem ManagerView.setsHolder_eq_none {storage : StorageName} {file : String}
    {view : ManagerView} : view.setsHolder storage file = none ↔ ¬ view.Lists storage file := by
  simp [ManagerView.setsHolder, ManagerView.Lists]

theorem ManagerView.setsHolder_eq_some {storage : StorageName} {file mgr : String}
    {view : ManagerView} : view.setsHolder storage file = some (some mgr) ↔
      view.Lists storage file ∧ view.name = mgr := by
  simp [ManagerView.setsHolder, ManagerView.Lists]

/-- The manager that the table has for the file once the entries are parsed. -/
def holderAfter (storage : StorageName) (file : String) (views : List ManagerView) :
    Option String :=
  after (ManagerView.setsHolder storage file) none views

/-- The last entry that lists a file is of the persistent storage, and no later one is about its
manager. -/
def HoldersCurrent (storage persistant : StorageName) (views : List ManagerView) : Prop :=
  ∀ pre view post file, views = pre ++ view :: post → view.Lists storage file →
    (∀ later ∈ post, ¬ later.Lists storage file) →
      NamesStorage view.name persistant ∧ ∀ later ∈ post, later.name ≠ view.name

/-- What a reply has to be like when `before` are the entries parsed before it. A file that is
listed by other than ephemeral managers is listed last by one of the persistent storage that the
reply does not mention again. A file that the table has is listed when its manager is in the
reply. -/
structure KeepsFiles (storage persistant : StorageName) (before views : List ManagerView) :
    Prop where
  listed : HoldersCurrent storage persistant views
  kept : ∀ file mgr, holderAfter storage file before = some mgr →
    (∃ view ∈ views, view.name = mgr) → ∃ view ∈ views, view.Lists storage file

section Entries

variable {storage persistant : StorageName} {file mgr : String} {views before : List ManagerView}

/-- The manager of a file is that of the last entry that lists it. -/
theorem holderAfter_eq_some : holderAfter storage file views = some mgr ↔
    ∃ pre view post, views = pre ++ view :: post ∧ view.Lists storage file ∧ view.name = mgr ∧
      ∀ later ∈ post, ¬ later.Lists storage file := by
  rw [holderAfter, after_eq_iff_of_ne (Option.some_ne_none mgr)]
  simp only [ManagerView.setsHolder_eq_some, ManagerView.setsHolder_eq_none, and_assoc]

/-- A file is in the table when some entry has listed it. -/
theorem exists_holderAfter_iff : (∃ mgr, holderAfter storage file views = some mgr) ↔
    ∃ view ∈ views, view.Lists storage file := by
  simp only [holderAfter_eq_some]
  constructor
  · rintro ⟨mgr, pre, view, post, rfl, hlists, _⟩
    exact ⟨view, by simp, hlists⟩
  · intro h
    obtain ⟨pre, view, post, hsplit, hlists, hpost⟩ := exists_last h
    exact ⟨view.name, pre, view, post, hsplit, hlists, rfl, hpost⟩

theorem holdersCurrent_nil : HoldersCurrent storage persistant [] := by
  intro pre view post file h
  simp at h

/-- Further entries leave the holders current exactly when they keep the files. -/
theorem holdersCurrent_append (h : HoldersCurrent storage persistant before) :
    HoldersCurrent storage persistant (before ++ views) ↔
      KeepsFiles storage persistant before views := by
  constructor
  · intro hall
    constructor
    · intro pre view post file hsplit hlists hpost
      exact hall (before ++ pre) view post file (by simp [hsplit]) hlists hpost
    · intro file mgr hholder hmentioned
      obtain ⟨pre, view, post, hsplit, hlists, rfl, hpost⟩ := holderAfter_eq_some.mp hholder
      by_contra hnone
      push Not at hnone
      obtain ⟨later, hlater, hname⟩ := hmentioned
      have hcurrent := hall pre view (post ++ views) file (by simp [hsplit]) hlists
        fun later hlater => (List.mem_append.mp hlater).elim (hpost later) (hnone later)
      exact hcurrent.2 later (List.mem_append_right _ hlater) hname
  · intro hkeeps pre view post file hsplit hlists hpost
    rcases List.append_eq_append_iff.mp hsplit with ⟨mid, rfl, hviews⟩ | ⟨mid, hbefore, hrest⟩
    · exact hkeeps.listed mid view post file hviews hlists hpost
    · cases mid with
      | nil =>
          rw [List.nil_append] at hrest
          exact hkeeps.listed [] view post file hrest.symm hlists hpost
      | cons view' mid =>
          obtain ⟨rfl, rfl⟩ := List.cons.inj hrest
          have hmid : ∀ later ∈ mid, ¬ later.Lists storage file :=
            fun later hlater => hpost later (List.mem_append_left _ hlater)
          obtain ⟨hstorage, hsame⟩ := h pre view mid file hbefore hlists hmid
          refine ⟨hstorage, fun later hlater => ?_⟩
          rcases List.mem_append.mp hlater with hlater | hlater
          · exact hsame later hlater
          · intro hname
            have hholder : holderAfter storage file before = some view.name :=
              holderAfter_eq_some.mpr ⟨pre, view, mid, hbefore, hlists, rfl, hmid⟩
            obtain ⟨again, hagain, hlists'⟩ :=
              hkeeps.kept file view.name hholder ⟨later, hlater, hname⟩
            exact hpost again (List.mem_append_right _ hagain) hlists'

end Entries

namespace ServerlessSystemView

/-- Every manager that the view gives for a file is of the persistent storage, and the file is
among the keys of its latest entry, which are the keys noted for it. -/
def LookupsSound (storage persistant : StorageName) (calls : List ViewCall) : Prop :=
  ∀ v, Reaches Step { ephemeral := storage, persistant := persistant } calls v →
    ∀ file mgr, v.getPersistentMgrForFile file = .ok mgr → NamesStorage mgr persistant ∧
      ∃ latest, LatestEntry calls mgr latest ∧ v.mgrToKeys.lookup mgr = some latest.key ∧
        file ∈ latest.key

section Runs

variable {storage persistant : StorageName} {calls : List ViewCall} {v : ServerlessSystemView}

theorem getPersistentMgrForFile_iff (h : TablesAfter storage persistant calls v)
    (file mgr : String) : v.getPersistentMgrForFile file = .ok mgr ↔
      holderAfter storage file (entries calls) = some mgr := by
  rw [holderAfter, ← h.holder, getPersistentMgrForFile]
  cases v.persistantKeyToMgr.lookup file <;> simp

/-- **When the lookups are sound.** Exactly when the last entry that lists a file is of the
persistent storage and the last about its manager. -/
theorem lookupsSound_iff
    (hrun : Reaches Step { ephemeral := storage, persistant := persistant } calls v) :
    LookupsSound storage persistant calls ↔
      HoldersCurrent storage persistant (entries calls) := by
  have h := tablesAfter_of_reaches hrun
  constructor
  · intro hsound pre view post file hsplit hlists hpost
    have hholder : v.getPersistentMgrForFile file = .ok view.name :=
      (getPersistentMgrForFile_iff h _ _).mpr
        (holderAfter_eq_some.mpr ⟨pre, view, post, hsplit, hlists, rfl, hpost⟩)
    obtain ⟨hstorage, latest, ⟨pre', post', hsplit', hname, hlast⟩, _, hfile⟩ :=
      hsound v hrun file view.name hholder
    refine ⟨hstorage, fun later hlater hlaterName => ?_⟩
    -- the latest entry of the manager comes behind `view`, so it would be the last to list the file
    obtain ⟨mid, again, rest, rfl, hagain, hrest⟩ :=
      exists_last (P := fun view' => view'.name = view.name) ⟨later, hlater, hlaterName⟩
    have hentries : (pre ++ view :: mid) ++ again :: rest = pre' ++ latest :: post' := by
      rw [← hsplit', hsplit]
      simp
    obtain ⟨_, rfl, _⟩ := last_unique (P := fun view' => view'.name = view.name) hentries hagain
      hname hrest hlast
    exact hpost again (by simp) ⟨hagain ▸ hlists.1, hfile⟩
  · intro hcurrent w hw file mgr hlookup
    obtain ⟨pre, view, post, hsplit, hlists, rfl, hpost⟩ :=
      holderAfter_eq_some.mp
        ((getPersistentMgrForFile_iff (tablesAfter_of_reaches hw) _ _).mp hlookup)
    obtain ⟨hstorage, hlater⟩ := hcurrent pre view post file hsplit hlists hpost
    refine ⟨hstorage, view, ⟨pre, post, hsplit, rfl, hlater⟩, ?_, hlists.2⟩
    rw [(tablesAfter_of_reaches hw).keys, hsplit]
    exact after_of_last (by simp [ManagerView.setsKeys]) fun later h => if_neg (hlater later h)

/-- **Sound lookups.** Along a run the lookups stay sound exactly when every reply keeps the
files. -/
theorem lookups_sound_throughout_iff
    (hrun : Reaches Step { ephemeral := storage, persistant := persistant } calls v) :
    Throughout (LookupsSound storage persistant) calls ↔
      EveryStep (fun before call => KeepsFiles storage persistant (entries before) call.entries)
        calls := by
  refine throughout_iff_everyStep ?_ ?_ hrun.throughout
  · exact (lookupsSound_iff .nil).mpr holdersCurrent_nil
  · rintro before call ⟨w', hw'⟩ hsound
    obtain ⟨w, hw, _⟩ := Reaches.snoc_iff.mp hw'
    rw [lookupsSound_iff hw', entries_append, entries_singleton]
    exact holdersCurrent_append ((lookupsSound_iff hw).mp hsound)

end Runs

section Example

/-- A manager of the persistent storage moves its file `f` to another one in one reply. -/
def movedFileCalls : List ViewCall :=
  [.parseGetViewReply {
      view := [{ name := "manager:FAKE_PERSISTANT:MANAGED:p", uri := "p:1", key := ["f"] }] },
    .parseGetViewReply {
      view := [{ name := "manager:FAKE_PERSISTANT:MANAGED:p", uri := "p:1" },
        { name := "manager:FAKE_PERSISTANT:MANAGED:q", uri := "q:1", key := ["f"] }] }]

theorem lookups_sound_throughout_iff_movedFile :
    Throughout (LookupsSound .ephemeral .fakePersistant) movedFileCalls ↔
      EveryStep (fun before call =>
        KeepsFiles .ephemeral .fakePersistant (entries before) call.entries) movedFileCalls :=
  lookups_sound_throughout_iff (v := viewAfter movedFileCalls) (.cons rfl (.cons rfl .nil))

/-- The file of a REDIS manager is taken for one in the persistent storage. -/
def redisCalls : List ViewCall :=
  [.parseGetViewReply {
    view := [{ name := "manager:REDIS:MANAGED:r", uri := "r:1", key := ["f"] }] }]

/-- A manager of the persistent storage loses its file. -/
def lostFileCalls : List ViewCall :=
  [.parseGetViewReply {
      view := [{ name := "manager:FAKE_PERSISTANT:MANAGED:p", uri := "p:1", key := ["f"] }] },
    .parseGetViewReply {
      view := [{ name := "manager:FAKE_PERSISTANT:MANAGED:p", uri := "p:1" }] }]

/-- The answers are of another storage, and out of date. -/
theorem persistent_lookups_wrong :
    (Reaches Step freshView redisCalls (viewAfter redisCalls) ∧
      (viewAfter redisCalls).getPersistentMgrForFile "f" = .ok "manager:REDIS:MANAGED:r" ∧
      ¬ NamesStorage "manager:REDIS:MANAGED:r" .fakePersistant ∧
      ¬ LookupsSound .ephemeral .fakePersistant redisCalls) ∧
    Reaches Step freshView lostFileCalls (viewAfter lostFileCalls) ∧
      (viewAfter lostFileCalls).getPersistentMgrForFile "f" =
        .ok "manager:FAKE_PERSISTANT:MANAGED:p" ∧
      (viewAfter lostFileCalls).mgrToKeys.lookup "manager:FAKE_PERSISTANT:MANAGED:p" = some [] ∧
      ¬ LookupsSound .ephemeral .fakePersistant lostFileCalls := by
  have hredis : Reaches Step freshView redisCalls (viewAfter redisCalls) := .cons rfl .nil
  have hlost : Reaches Step freshView lostFileCalls (viewAfter lostFileCalls) :=
    .cons rfl (.cons rfl .nil)
  have hother : ¬ NamesStorage "manager:REDIS:MANAGED:r" .fakePersistant := by decide
  have hnoKeys : (viewAfter lostFileCalls).mgrToKeys.lookup "manager:FAKE_PERSISTANT:MANAGED:p" =
      some [] := rfl
  refine ⟨⟨hredis, rfl, hother, fun hsound => ?_⟩, hlost, rfl, hnoKeys, fun hsound => ?_⟩
  · exact hother (hsound _ hredis "f" _ rfl).1
  · obtain ⟨_, latest, _, hkeys, hfile⟩ :=
      hsound _ hlost "f" "manager:FAKE_PERSISTANT:MANAGED:p" rfl
    rw [← Option.some.inj (hnoKeys.symm.trans hkeys)] at hfile
    cases hfile

end Example

end ServerlessSystemView

end ProgrammableCaching
