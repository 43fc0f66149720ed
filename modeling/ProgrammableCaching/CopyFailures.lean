import ProgrammableCaching.Faults

/-! A copy whose `Get` fails. `StorageManager::CopyFrom` looks neither at the status of its `Get`
nor at whether the other manager found the key, and stores what the reply holds. -/

namespace ProgrammableCaching

open UnorderedMap Handler

/-- How the `Get` of a copy goes. A `Get` that is served may still find no key, or no server. -/
inductive Fetch
  | served
  | lost
  /-- The medium reports an error and leaves `junk` in its output parameter. -/
  | readError (junk : String)
  deriving DecidableEq, Repr

namespace Fetch

def fault : Fetch → Fault
  | served => {}
  | lost => { fetchLost := true }
  | readError junk => { readError := some junk }

end Fetch

namespace World

variable {σ : Type} [StorageInterface σ]

/-- `CopyFrom` of the manager at `uri`. -/
def copyFrom (fetch : Fetch) (uri : String) (request : CopyFromRequest) :
    Handler (World σ) Status :=
  faultyCopyFrom (σ := Struck fetch.fault σ) fetch.fault uri request

section Lawful

variable [LawfulStorage σ] {w : World σ} {uri : String} {request : CopyFromRequest}

/-- What the other manager holds, when the fetch brings it. -/
def fetched (w : World σ) (request : CopyFromRequest) : Fetch → Option String
  | .served => w.value request.dstUri request.key
  | .lost | .readError _ => none

omit [StorageInterface σ] [LawfulStorage σ] in
/-- What a fetch that fails leaves in the reply. -/
def leftover (w : World σ) (request : CopyFromRequest) : Fetch → String
  | .served | .lost => ""
  | .readError junk => if w.Running request.dstUri then junk else ""

/-- The manager at `uri` keeps its store when nothing has been fetched, and otherwise has changed
the one entry. -/
def CopiedCleanly (w w' : World σ) (uri key : String) : Option String → Prop
  | some v => w'.value uri = Function.update (w.value uri) key (some v)
  | none => w'.value uri = w.value uri

/-- A `Get` that reports an error brings the junk and changes no contents. -/
theorem copyFetch_readError (w : World σ) (junk : String) (request : CopyFromRequest) :
    (copyFetch (σ := Struck (Fetch.readError junk).fault σ) w request).1 =
        { value := w.leftover request (.readError junk) } ∧
      Effect [] w (copyFetch (σ := Struck (Fetch.readError junk).fault σ) w request).2 := by
  have hfetch : copyFetch (σ := Struck (Fetch.readError junk).fault σ) w request =
      (w.managers.lookup request.dstUri).elim ({}, w) fun s =>
        ({ value := junk }, w.setManager request.dstUri s) :=
    copyFetch_eq (σ := Struck (Fetch.readError junk).fault σ) request
  cases h : w.managers.lookup request.dstUri with
  | none =>
      have hrun : ¬ w.Running request.dstUri := Finmap.lookup_eq_none.mp h
      rw [hfetch, h]
      exact ⟨by simp [leftover, hrun], Effect.refl w⟩
  | some s =>
      have hrun : w.Running request.dstUri := (w.running_iff _).mpr ⟨s, h⟩
      rw [hfetch, h]
      refine ⟨by simp [leftover, hrun], Effect.of_setManager h [] ?_ fun _ _ _ => rfl⟩
      exact fun k => (value_of_lookup h k).symm

theorem copyFromStore_run (h : w.Running uri) (request : CopyFromRequest) (reply : GetReply) :
    ∃ w', copyFromStore uri request reply w = .ok (.ok, w') ∧
      w'.value uri = Function.update (w.value uri) request.key (some reply.value) := by
  obtain ⟨r, hr⟩ := managerCall_total h fun s : σ =>
    (Status.ok, (StorageInterface.put s request.key reply.value).2)
  have hstore : copyFromStore uri request reply w = .ok r := hr
  obtain ⟨hstatus, heffect⟩ := copyFromStore_ok hstore
  refine ⟨r.2, hstore.trans (by rw [← hstatus]), ?_⟩
  funext key
  rw [heffect.value]
  by_cases hkey : key = request.key <;>
    simp [Replicas.run, Replicas.apply, Replicas.set, Function.update, hkey]

/-- A copy stores what has come back of its fetch. -/
theorem copyFrom_run_of_fetch (h : w.Running uri) {fetch : Fetch} {reply : GetReply}
    {w₁ : World σ} {v : String} (hreply : reply = { value := v }) (hkept : Effect [] w w₁)
    (hfetch : copyFrom fetch uri request w =
      copyFromStore (σ := Struck fetch.fault σ) uri request reply w₁) :
    ∃ w', copyFrom fetch uri request w = .ok (.ok, w') ∧
      w'.value uri = Function.update (w.value uri) request.key (some v) := by
  have hwrite : fetch.fault.writeError = false := by cases fetch <;> rfl
  have hstruck : copyFromStore (σ := Struck fetch.fault σ) uri request =
      copyFromStore (σ := σ) uri request := copyFromStore_struck hwrite request
  obtain ⟨w', hstore, hvalue⟩ := copyFromStore_run ((hkept.running uri).mpr h) request reply
  refine ⟨w', ?_, ?_⟩
  · rw [hfetch]
    exact (congrFun (congrFun hstruck reply) w₁).trans hstore
  · rw [hvalue, hkept.value, hreply]
    rfl

/-- A copy stores what it has fetched, or what the failed fetch has left. -/
theorem copyFrom_run (h : w.Running uri) (fetch : Fetch) (request : CopyFromRequest) :
    ∃ w', copyFrom fetch uri request w = .ok (.ok, w') ∧
      w'.value uri = Function.update (w.value uri) request.key
        (some ((w.fetched request fetch).getD (w.leftover request fetch))) := by
  cases fetch with
  | lost =>
      -- what is stored is the reply before the call
      have hreply : ({} : GetReply) = { value := "" } := rfl
      exact copyFrom_run_of_fetch h hreply (Effect.refl w) rfl
  | served =>
      have hcopy : copyFrom .served uri request w = managerCopyFrom uri request w :=
        congrFun (managerCopyFrom_struck rfl rfl request) w
      have hstruck : copyFromStore (σ := Struck Fetch.served.fault σ) uri request =
        copyFromStore (σ := σ) uri request := copyFromStore_struck rfl request
      have hfetch : copyFromFetch uri request w = .ok (w.copyFetch request) := if_pos h
      obtain ⟨hreply, hkept⟩ := w.copyFetch_spec request
      refine copyFrom_run_of_fetch h hreply hkept (hcopy.trans ((bind_of_ok hfetch).trans ?_))
      exact congrFun (congrFun hstruck.symm _) _
  | readError junk =>
      have hfetch : copyFromFetch (σ := Struck (Fetch.readError junk).fault σ) uri request w =
          .ok (copyFetch (σ := Struck (Fetch.readError junk).fault σ) w request) := if_pos h
      obtain ⟨hreply, hkept⟩ := w.copyFetch_readError junk request
      exact copyFrom_run_of_fetch h hreply hkept (bind_of_ok hfetch)

/-- **A failed copy.** The manager keeps its store clean exactly when the fetch succeeds, or the
manager already holds what the failed fetch has left in the reply. -/
theorem copyFrom_clean_iff (h : w.Running uri) (fetch : Fetch) (request : CopyFromRequest) :
    (∃ status w', copyFrom fetch uri request w = .ok (status, w') ∧
        CopiedCleanly w w' uri request.key (w.fetched request fetch)) ↔
      (w.fetched request fetch).isSome ∨
        w.value uri request.key = some (w.leftover request fetch) := by
  obtain ⟨w', hrun, hvalue⟩ := copyFrom_run h fetch request
  have hresult : (∃ status w', copyFrom fetch uri request w = .ok (status, w') ∧
      CopiedCleanly w w' uri request.key (w.fetched request fetch)) ↔
      CopiedCleanly w w' uri request.key (w.fetched request fetch) := by
    rw [hrun]
    constructor
    · rintro ⟨status, w'', hok, hclean⟩
      cases hok
      exact hclean
    · exact fun hclean => ⟨.ok, w', rfl, hclean⟩
  rw [hresult]
  cases hfetched : w.fetched request fetch with
  | some v => simp [CopiedCleanly, hvalue, hfetched]
  | none =>
      simp only [CopiedCleanly, hvalue, hfetched, Option.getD_none, Option.isSome_none,
        Function.update_eq_self_iff, Bool.false_eq_true, false_or]
      exact eq_comm

end Lawful

/-! ## A lost replica -/

open TwoManagers

theorem copyFrom_clean_iff_twoManagers :
    (∃ status w', copyFrom .served "n2:1" ⟨"k", "n1:1"⟩ twoManagers = .ok (status, w') ∧
        CopiedCleanly twoManagers w' "n2:1" "k"
          (twoManagers.fetched ⟨"k", "n1:1"⟩ .served)) ↔
      (twoManagers.fetched ⟨"k", "n1:1"⟩ .served).isSome ∨
        twoManagers.value "n2:1" "k" = some (twoManagers.leftover ⟨"k", "n1:1"⟩ .served) :=
  copyFrom_clean_iff (by decide) .served ⟨"k", "n1:1"⟩

/-- The first manager holds `k` and copies it from the second, which does not: the value is
gone. -/
theorem copyFrom_overwrites_replica :
    twoManagers.Running "n1:1" ∧ twoManagers.value "n1:1" "k" = some "v" ∧
      twoManagers.fetched ⟨"k", "n2:1"⟩ .served = none ∧
      ∃ w', copyFrom .served "n1:1" ⟨"k", "n2:1"⟩ twoManagers = .ok (.ok, w') ∧
        w'.value "n1:1" "k" = some "" ∧
        ¬ CopiedCleanly twoManagers w' "n1:1" "k" (twoManagers.fetched ⟨"k", "n2:1"⟩ .served) := by
  have running_first : twoManagers.Running "n1:1" := by decide
  have hholds : twoManagers.value "n1:1" "k" = some "v" := by simp [twoManagers_value]
  have hmiss : twoManagers.fetched ⟨"k", "n2:1"⟩ .served = none := by
    simp [fetched, twoManagers_value]
  obtain ⟨w', hrun, hvalue⟩ :=
    copyFrom_run running_first .served ⟨"k", "n2:1"⟩
  have hlost : w'.value "n1:1" "k" = some "" := by simp [hvalue, hmiss, leftover]
  refine ⟨running_first, hholds, hmiss, w', hrun, hlost, ?_⟩
  rw [hmiss]
  intro hclean
  have hsame : w'.value "n1:1" "k" = twoManagers.value "n1:1" "k" := congrFun hclean "k"
  simp [hlost, hholds] at hsame

end World

end ProgrammableCaching
