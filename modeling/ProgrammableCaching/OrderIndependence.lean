import ProgrammableCaching.SerializableMaster

/-! Storage changes that the master handles at the same time. Batches of which
none removes what another one adds may come in any order, and their updates may
come between each other. -/

namespace ProgrammableCaching

open Pools Runs Serializability

/-- The pairs of manager and key that `StorageChange` adds for an action. -/
def Action.adds : Action → List (String × String)
  | .copyFrom a => [(a.srcMgr.name, a.key)]
  | .put a => [(a.mgr.name, a.key)]
  | .remove _ | .get _ | .notSet => []

/-- The pairs of manager and key that `StorageChange` removes for an action. -/
def Action.removes : Action → List (String × String)
  | .copyFrom a => [(a.dstMgr.name, a.key)]
  | .remove a => [(a.mgr.name, a.key)]
  | .put _ | .get _ | .notSet => []

def StorageChangeRequest.adds (request : StorageChangeRequest) : List (String × String) :=
  request.storageChange.flatMap Action.adds

def StorageChangeRequest.removes (request : StorageChangeRequest) : List (String × String) :=
  request.storageChange.flatMap Action.removes

/-- Neither of the batches removes a pair that the other one adds. -/
def StorageChangeRequest.Compatible (a b : StorageChangeRequest) : Prop :=
  (∀ p ∈ a.adds, p ∉ b.removes) ∧ ∀ p ∈ b.adds, p ∉ a.removes

instance (a b : StorageChangeRequest) : Decidable (a.Compatible b) :=
  inferInstanceAs (Decidable (_ ∧ _))

namespace TableUpdate

theorem mem_changeUpdates_add {a : Action} {name key : String} :
    addFileToManager name key ∈ MasterThread.changeUpdates a ↔ (name, key) ∈ a.adds := by
  cases a <;> simp [MasterThread.changeUpdates, Action.adds]

theorem mem_changeUpdates_remove {a : Action} {name key : String} :
    removeFileFromManager name key ∈ MasterThread.changeUpdates a ↔ (name, key) ∈ a.removes := by
  cases a <;> simp [MasterThread.changeUpdates, Action.removes]

theorem mem_updates_add {request : StorageChangeRequest} {name key : String} :
    addFileToManager name key ∈ (MasterRequest.storageChange request).updates ↔
      (name, key) ∈ request.adds := by
  simp [MasterRequest.updates, StorageChangeRequest.adds, mem_changeUpdates_add]

theorem mem_updates_remove {request : StorageChangeRequest} {name key : String} :
    removeFileFromManager name key ∈ (MasterRequest.storageChange request).updates ↔
      (name, key) ∈ request.removes := by
  simp [MasterRequest.updates, StorageChangeRequest.removes, mem_changeUpdates_remove]

end TableUpdate

/-- Updates of compatible batches do not conflict. -/
theorem not_conflicts_of_compatible {a b : StorageChangeRequest} (h : a.Compatible b)
    {u u' : TableUpdate} (hu : u ∈ (MasterRequest.storageChange a).updates)
    (hu' : u' ∈ (MasterRequest.storageChange b).updates) :
    ¬ (ViewStep.update u).Conflicts (.update u') := by
  have hreset : ∀ request name, .addManager name ∉ (MasterRequest.storageChange request).updates :=
    fun _ _ hmem => by cases StorageMaster.introduced_of_addManager hmem
  cases u with
  | addPeer => cases u' <;> exact id
  | addManager => exact absurd hu (hreset _ _)
  | addFileToManager name key =>
      cases u' with
      | addPeer => exact id
      | addManager => exact absurd hu' (hreset _ _)
      | addFileToManager => exact id
      | removeFileFromManager name' key' =>
          rintro ⟨rfl, rfl⟩
          exact h.1 _ (TableUpdate.mem_updates_add.mp hu) (TableUpdate.mem_updates_remove.mp hu')
  | removeFileFromManager name key =>
      cases u' with
      | addPeer => exact id
      | addManager => exact absurd hu' (hreset _ _)
      | removeFileFromManager => exact id
      | addFileToManager name' key' =>
          rintro ⟨rfl, rfl⟩
          exact h.2 _ (TableUpdate.mem_updates_add.mp hu') (TableUpdate.mem_updates_remove.mp hu)

/-! ## Runs of storage changes -/

namespace StorageMaster

/-- The handlers of the batches, all there from the start. -/
def storageChanges (requests : List StorageChangeRequest) : List MasterCall :=
  requests.map fun request => .update (.storageChange request)

/-- Where a run has come to: the view after the updates made so far, and each
handler with the updates that it has still to make. -/
structure ChangesTrack (m : StorageMaster) (requests : List StorageChangeRequest)
    (es : List MasterEvent) (P : Pool StorageMaster (MasterThread MasterReply)) : Prop where
  view : P.state.fileView = final ViewStep.apply m.fileView (schedule es)
  length : P.threads.length = requests.length
  bounded : ∀ e ∈ schedule es, e.1 < requests.length
  left : ∀ (i : ℕ) request p, requests[i]? = some request → P.threads[i]? = some p →
    ∃ rest, (MasterRequest.storageChange request).updates.map ViewStep.update =
        (stepsOf i (schedule es)).map Prod.snd ++ rest.map ViewStep.update ∧
      p = MasterThread.script rest (.storageChange .ok)

/-- A handler makes the first of the updates that are left. -/
theorem script_step {m m' : StorageMaster} {rest : List TableUpdate} {reply : MasterReply}
    {c : Σ β, LockedStep β} {p' : MasterThread MasterReply}
    (h : MasterThread.Step m (MasterThread.script rest reply) c m' p') :
    ∃ u rest', rest = u :: rest' ∧ c = ⟨Unit, .update u⟩ ∧ m' = u.apply m ∧
      p' = MasterThread.script rest' reply := by
  obtain ⟨o, _, h⟩ := h
  cases rest with
  | nil => exact absurd h Prog.not_step_done
  | cons u rest =>
      obtain ⟨rfl, _, heq, rfl⟩ := Prog.step_call.mp h
      cases heq
      exact ⟨u, rest, rfl, rfl, rfl, rfl⟩

theorem changesTrack_of_reaches {m : StorageMaster} {requests : List StorageChangeRequest}
    {es : List MasterEvent} {P : Pool StorageMaster (MasterThread MasterReply)}
    (h : Reaches LockedPoolStep ⟨m, (storageChanges requests).map MasterCall.code⟩ es P) :
    ChangesTrack m requests es P := by
  have hsize : ((storageChanges requests).map MasterCall.code).length = requests.length := by
    simp [storageChanges]
  obtain ⟨hview, hlen, hbound⟩ := view_of_reaches h
  rw [hsize] at hlen hbound
  refine ⟨hview, hlen, hbound, ?_⟩
  clear hview hlen hbound
  induction h with
  | nil =>
      intro i request p hi hp
      simp only [storageChanges, List.map_map, List.getElem?_map, hi, Option.map_some,
        Option.some.injEq] at hp
      subst hp
      exact ⟨_, rfl, MasterThread.code_update _⟩
  | snoc hreach hstep ih =>
      cases hstep with
      | spawn hp => exact absurd hp id
      | @step m₁ m₂ ts i p p' c hi hone =>
          have hlt : i < requests.length := by
            rw [← hsize, ← (view_of_reaches hreach).2.1]
            exact (List.getElem?_eq_some_iff.mp hi).1
          have hrequest := List.getElem?_eq_getElem hlt
          obtain ⟨rest, hsplit, rfl⟩ := ih i _ p hrequest hi
          obtain ⟨u, rest, rfl, rfl, rfl, rfl⟩ := script_step hone
          intro j request q hj hq
          rw [schedule_step, stepsOf_append, List.map_append, made_toList]
          rcases getElem?_set_cases hi hq with ⟨rfl, rfl⟩ | ⟨hji, hold⟩
          · cases hrequest.symm.trans hj
            exact ⟨rest, by rw [hsplit, if_pos rfl]; simp [LockedStep.viewStep], rfl⟩
          · rw [if_neg (Ne.symm hji), List.append_nil]
            exact ih j request q hj hold

/-- When no handler can go on, each has made its updates. -/
theorem ChangesTrack.made {m : StorageMaster} {requests : List StorageChangeRequest}
    {es : List MasterEvent} {P : Pool StorageMaster (MasterThread MasterReply)}
    (h : ChangesTrack m requests es P) (hend : ∀ e P', ¬ LockedPoolStep P e P') (i : ℕ)
    {request : StorageChangeRequest} (hi : requests[i]? = some request) :
    (stepsOf i (schedule es)).map Prod.snd =
      (MasterRequest.storageChange request).updates.map ViewStep.update := by
  have hlt : i < P.threads.length := by
    rw [h.length]
    exact (List.getElem?_eq_some_iff.mp hi).1
  have hp := List.getElem?_eq_getElem hlt
  obtain ⟨rest, hsplit, hrest⟩ := h.left i request _ hi hp
  cases rest with
  | nil => simpa using hsplit.symm
  | cons u rest =>
      rw [hrest] at hp
      exact absurd (update_step i hp) (hend _ _)

/-- **Order independence.** From any view, batches that are compatible with each
other are handled at the same time. However their updates interleave, when all
have come to an end the view is the one that the batches leave when they are
handled one after the other, in whichever order. -/
theorem storageChanges_any_order {m : StorageMaster} {requests : List StorageChangeRequest}
    {es : List MasterEvent} {P : Pool StorageMaster (MasterThread MasterReply)}
    (hcompatible : ∀ (i j : ℕ) a b, requests[i]? = some a → requests[j]? = some b → i ≠ j →
      a.Compatible b)
    (hrun : Reaches LockedPoolStep ⟨m, (storageChanges requests).map MasterCall.code⟩ es P)
    (hend : ∀ e P', ¬ LockedPoolStep P e P') {order : List ℕ}
    (horder : order.Perm (List.range requests.length)) :
    P.state.fileView = (m.runCalls (pick (storageChanges requests) order)).fileView := by
  have htrack := changesTrack_of_reaches hrun
  have hmade := fun i request => @ChangesTrack.made _ _ _ _ htrack hend i request
  have hmem : ∀ i, i ∈ order ↔ i < requests.length := fun i =>
    horder.mem_iff.trans List.mem_range
  -- steps of two batches are updates that these make
  have hstep : ∀ e ∈ schedule es, ∃ request u, requests[e.1]? = some request ∧
      u ∈ (MasterRequest.storageChange request).updates ∧ e.2 = .update u := by
    rintro ⟨i, s⟩ he
    have hi := List.getElem?_eq_getElem (htrack.bounded _ he)
    have hs : s ∈ (stepsOf i (schedule es)).map Prod.snd :=
      List.mem_map.mpr ⟨(i, s), mem_stepsOf.mpr ⟨he, rfl⟩, rfl⟩
    rw [hmade i _ hi] at hs
    obtain ⟨u, hu, rfl⟩ := List.mem_map.mp hs
    exact ⟨_, u, hi, hu, rfl⟩
  have hfree : ∀ i j, ¬ Precedes ViewStep.Conflicts (schedule es) i j := by
    rintro i j ⟨hne, s, t, hst, hconflict⟩
    obtain ⟨a, u, ha, hu, rfl⟩ := hstep (i, s) (hst.subset (by simp))
    obtain ⟨b, u', hb, hu', rfl⟩ := hstep (j, t) (hst.subset (by simp))
    exact not_conflicts_of_compatible (hcompatible i j a b ha hb hne) hu hu' hconflict
  have hsame : Same ViewStep.apply ViewStep.out (schedule es) (serial order (schedule es)) :=
    same_serial (fun s t => ViewStep.independent) hfree
      (horder.nodup_iff.mpr List.nodup_range)
      fun e he => (hmem e.1).mpr (htrack.bounded e he)
  have hsteps : ∀ i call, (storageChanges requests)[i]? = some call →
      (stepsOf i (schedule es)).map Prod.snd = call.viewSteps := by
    intro i call hcall
    obtain ⟨request, hi, rfl⟩ := Option.map_eq_some_iff.mp
      ((List.getElem?_map ..).symm.trans hcall)
    exact hmade i request hi
  rw [htrack.view, (hsame m.fileView).1, fileView_runCalls hsteps order fun i hi => ?_]
  rw [storageChanges, List.length_map]
  exact (hmem i).mp hi

section Example

/-- One batch moves `k` from `b` to `a`; the other removes `z` at `b`, which the
view does not know, and puts `k` at `a` too. -/
def moveAndPut : List StorageChangeRequest :=
  [⟨[.copyFrom ⟨"k", { name := "a" }, { name := "b" }⟩, .put ⟨"y", { name := "c" }⟩]⟩,
    ⟨[.remove ⟨"z", { name := "b" }⟩, .put ⟨"k", { name := "a" }⟩]⟩]

/-- The removal comes between the two updates of the copy. -/
def removeBetween : List MasterEvent :=
  [.step 0 ⟨_, .update (.addFileToManager "a" "k")⟩,
    .step 1 ⟨_, .update (.removeFileFromManager "b" "z")⟩,
    .step 0 ⟨_, .update (.removeFileFromManager "b" "k")⟩,
    .step 1 ⟨_, .update (.addFileToManager "a" "k")⟩,
    .step 0 ⟨_, .update (.addFileToManager "c" "y")⟩]

theorem storageChanges_any_order_removeBetween :
    ∃ P, Reaches LockedPoolStep ⟨{}, (storageChanges moveAndPut).map MasterCall.code⟩
        removeBetween P ∧
      P.state.fileView = (runCalls {} (pick (storageChanges moveAndPut) [1, 0])).fileView := by
  have hrun : ∃ P, Reaches LockedPoolStep ⟨{}, (storageChanges moveAndPut).map MasterCall.code⟩
      removeBetween P ∧ ∀ p ∈ P.threads, ∃ reply, p = .done reply := by
    refine ⟨_, .cons (update_step 0 rfl) (.cons (update_step 1 rfl) (.cons (update_step 0 rfl)
      (.cons (update_step 1 rfl) (.cons (update_step 0 rfl) .nil)))), ?_⟩
    have hdone : ∀ p ∈ ([.done (.storageChange .ok), .done (.storageChange .ok)] :
        List (MasterThread MasterReply)), ∃ reply, p = .done reply := by simp
    exact hdone
  obtain ⟨P, hP, hdone⟩ := hrun
  refine ⟨P, hP, storageChanges_any_order ?_ hP (ended_of_done hdone) (by decide)⟩
  intro i j a b hi hj hne
  have hlt : i < 2 ∧ j < 2 :=
    ⟨(List.getElem?_eq_some_iff.mp hi).1, (List.getElem?_eq_some_iff.mp hj).1⟩
  obtain ⟨rfl, rfl⟩ | ⟨rfl, rfl⟩ : i = 0 ∧ j = 1 ∨ i = 1 ∧ j = 0 := by omega
  · cases hi
    cases hj
    decide
  · cases hi
    cases hj
    decide

end Example

end StorageMaster

end ProgrammableCaching
