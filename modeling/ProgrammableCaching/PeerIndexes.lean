import ProgrammableCaching.Library.Indexes
import ProgrammableCaching.MasterRuns

/-! The two tables of the peer tracker. `AddPeer` puts one shared record under a name and under a
connection. A peer that comes back over another connection gets a new record, and its old
connection keeps the old one. -/

namespace ProgrammableCaching

open UnorderedMap Runs Indexes

/-! ## The shared records -/

/-- The peer tracker with its pointers: the tables hold the places of their records. -/
structure PeerRecords where
  /-- The records that `make_shared` has made, in that order. -/
  peers : List Peer := []
  nameToPeer : UMap String ℕ := ∅
  connectionToPeer : UMap String ℕ := ∅

namespace PeerRecords

/-- The record that the table has for the key. -/
def pointee (s : PeerRecords) (table : UMap String ℕ) (key : String) : Option Peer :=
  (table.lookup key).bind fun record => s.peers[record]?

def getPeerFromName (s : PeerRecords) (name : String) : Except Failure Peer :=
  match s.pointee s.nameToPeer name with
  | some p => .ok p
  | none => .error .outOfRange

def getPeerFromConnection (s : PeerRecords) (conn : String) : Except Failure Peer :=
  match s.pointee s.connectionToPeer conn with
  | some p => .ok p
  | none => .error .outOfRange

def addPeer (s : PeerRecords) (name rpcUri connectionUri : String) : PeerRecords :=
  let record := s.peers.length
  { peers := s.peers ++ [⟨name, rpcUri, connectionUri⟩]
    nameToPeer := s.nameToPeer.insert name record
    connectionToPeer := s.connectionToPeer.insert connectionUri record }

/-- The tracker after calls of `AddPeer`, each given by the record that it makes. -/
def run (s : PeerRecords) (calls : List Peer) : PeerRecords :=
  calls.foldl (fun s p => s.addPeer p.name p.rpcUri p.connectionUri) s

theorem run_snoc (s : PeerRecords) (calls : List Peer) (p : Peer) :
    s.run (calls ++ [p]) = (s.run calls).addPeer p.name p.rpcUri p.connectionUri := by
  simp [run]

/-- Every call makes its record, and the tables index them. -/
theorem run_eq (calls : List Peer) : run {} calls =
    { peers := calls
      nameToPeer := index Peer.name calls
      connectionToPeer := index Peer.connectionUri calls } := by
  induction calls using List.reverseRecOn with
  | nil => rfl
  | append_singleton calls p ih =>
      rw [run_snoc, ih, index_snoc, index_snoc]
      rfl

/-- What a connection leads to is the very record that its name leads to, so neither lookup
returns an address that the other one would not. -/
structure IndexesAgree (s : PeerRecords) : Prop where
  record : ∀ conn r p, s.connectionToPeer.lookup conn = some r → s.peers[r]? = some p →
    s.nameToPeer.lookup p.name = some r
  address : ∀ conn p, s.getPeerFromConnection conn = .ok p →
    ∃ q, s.getPeerFromName p.name = .ok q ∧ q.rpcUri = p.rpcUri

theorem getPeerFromConnection_ok {s : PeerRecords} {conn : String} {p : Peer} :
    s.getPeerFromConnection conn = .ok p ↔
      ∃ r, s.connectionToPeer.lookup conn = some r ∧ s.peers[r]? = some p := by
  rw [← Option.bind_eq_some_iff, getPeerFromConnection, pointee]
  cases (s.connectionToPeer.lookup conn).bind fun record => s.peers[record]? <;> simp

theorem getPeerFromName_of_lookup {s : PeerRecords} {name : String} {r : ℕ} {p : Peer}
    (h : s.nameToPeer.lookup name = some r) (hp : s.peers[r]? = some p) :
    s.getPeerFromName name = .ok p := by
  simp [getPeerFromName, pointee, h, hp]

/-- The tables agree when the latest call over a connection is the latest under its name. -/
theorem indexesAgree_iff (calls : List Peer) :
    (run {} calls).IndexesAgree ↔ Agree Peer.name Peer.connectionUri calls := by
  rw [run_eq]
  constructor
  · intro h conn n p hlatest
    have hname := h.record conn n p (lookup_index.mpr ⟨p, hlatest⟩) hlatest.getElem?
    obtain ⟨q, hq⟩ := lookup_index.mp hname
    obtain rfl := Option.some.inj (hlatest.getElem?.symm.trans hq.getElem?)
    exact hq
  · intro h
    have hrecord : ∀ conn r p, (index Peer.connectionUri calls).lookup conn = some r →
        calls[r]? = some p → (index Peer.name calls).lookup p.name = some r := by
      intro conn r p hconn hp
      obtain ⟨q, hq⟩ := lookup_index.mp hconn
      obtain rfl := Option.some.inj (hp.symm.trans hq.getElem?)
      exact lookup_index.mpr ⟨p, h conn r p hq⟩
    refine ⟨hrecord, fun conn p hok => ?_⟩
    obtain ⟨r, hconn, hp⟩ := getPeerFromConnection_ok.mp hok
    exact ⟨p, getPeerFromName_of_lookup (hrecord conn r p hconn hp) hp, rfl⟩

end PeerRecords

/-- A call for a name that an earlier call was for comes over the connection of that call, unless
one in between has come over it. -/
def KeepsIndexes (before : List Peer) (p : Peer) : Prop :=
  ∀ pre earlier post, before = pre ++ earlier :: post → earlier.name = p.name →
    (∀ later ∈ post, later.connectionUri ≠ earlier.connectionUri) →
      earlier.connectionUri = p.connectionUri

theorem keepsIndexes_iff (before : List Peer) (p : Peer) :
    KeepsIndexes before p ↔ Keeps Peer.name Peer.connectionUri before p := by
  constructor
  · rintro h conn n earlier ⟨pre, post, hsplit, rfl, rfl, hpost⟩ hname
    exact h pre earlier post hsplit hname hpost
  · intro h pre earlier post hsplit hname hpost
    exact h _ _ earlier ⟨pre, post, hsplit, rfl, rfl, hpost⟩ hname

theorem agree_throughout_iff_keepsIndexes (calls : List Peer) :
    Throughout (Agree Peer.name Peer.connectionUri) calls ↔ EveryStep KeepsIndexes calls :=
  agree_throughout_iff.trans (everyStep_congr fun before p _ => (keepsIndexes_iff before p).symm)

namespace PeerRecords

/-- **The two tables of peers.** They agree after every call exactly when no call is for a peer
that another connection still leads to. -/
theorem indexesAgree_throughout_iff (calls : List Peer) :
    Throughout (fun calls => (run {} calls).IndexesAgree) calls ↔
      EveryStep KeepsIndexes calls := by
  rw [← agree_throughout_iff_keepsIndexes]
  simp only [Throughout, indexesAgree_iff]

end PeerRecords

section Example

/-- The peer `m` comes back from another address, over another connection. -/
def comesBack : List Peer := [⟨"m", "h:1", "ipv4:1"⟩, ⟨"m", "h:2", "ipv4:2"⟩]

/-- The first connection still leads to the record that the name has given up. -/
theorem old_connection_is_stale :
    (PeerRecords.run {} comesBack).connectionToPeer.lookup "ipv4:1" = some 0 ∧
      (PeerRecords.run {} comesBack).nameToPeer.lookup "m" = some 1 ∧
      (PeerRecords.run {} comesBack).getPeerFromConnection "ipv4:1" =
        .ok ⟨"m", "h:1", "ipv4:1"⟩ ∧
      (PeerRecords.run {} comesBack).getPeerFromName "m" = .ok ⟨"m", "h:2", "ipv4:2"⟩ ∧
      ¬ (PeerRecords.run {} comesBack).IndexesAgree := by
  refine ⟨rfl, rfl, rfl, rfl, fun h => ?_⟩
  obtain ⟨q, hq, huri⟩ := h.address "ipv4:1" ⟨"m", "h:1", "ipv4:1"⟩ rfl
  have hname : (PeerRecords.run {} comesBack).getPeerFromName "m" =
      .ok ⟨"m", "h:2", "ipv4:2"⟩ := rfl
  cases hname.symm.trans hq
  exact absurd huri (by decide)

end Example

/-! ## The tracker without pointers -/

namespace PeerTracker

def run (t : PeerTracker) (calls : List Peer) : PeerTracker :=
  calls.foldl (fun t p => t.addPeer p.name p.rpcUri p.connectionUri) t

theorem run_append (t : PeerTracker) (calls calls' : List Peer) :
    t.run (calls ++ calls') = (t.run calls).run calls' := by
  simp [run]

end PeerTracker

namespace PeerRecords

/-- All pointers of the table are to records that have been made. -/
def Made (s : PeerRecords) (table : UMap String ℕ) : Prop :=
  ∀ key r, table.lookup key = some r → r < s.peers.length

/-- The tracker `t` has the records themselves where `s` points to them. -/
structure Represents (s : PeerRecords) (t : PeerTracker) : Prop where
  names : Made s s.nameToPeer
  connections : Made s s.connectionToPeer
  nameToPeer : ∀ name, s.pointee s.nameToPeer name = t.nameToPeer.lookup name
  connectionToPeer : ∀ conn, s.pointee s.connectionToPeer conn = t.connectionToPeer.lookup conn

section Represents

variable {s : PeerRecords} {t : PeerTracker} {table : UMap String ℕ}

theorem represents_empty : Represents {} {} where
  names key r h := by simp at h
  connections key r h := by simp at h
  nameToPeer name := by simp [pointee]
  connectionToPeer conn := by simp [pointee]

theorem Made.addPeer (h : Made s table) (p : Peer) (key : String) :
    Made (s.addPeer p.name p.rpcUri p.connectionUri) (table.insert key s.peers.length) := by
  intro key' r hr
  rw [lookup_insert_ite] at hr
  simp only [PeerRecords.addPeer, List.length_append, List.length_singleton]
  split_ifs at hr
  · cases hr
    omega
  · have hlt := h key' r hr
    omega

/-- A new record is under its key, and the other keys keep theirs. -/
theorem Made.pointee_addPeer (h : Made s table) (p : Peer) (key key' : String) :
    (s.addPeer p.name p.rpcUri p.connectionUri).pointee (table.insert key s.peers.length) key' =
      if key' = key then some p else s.pointee table key' := by
  rw [pointee, lookup_insert_ite]
  split_ifs
  · simp [PeerRecords.addPeer]
  · cases hr : table.lookup key' with
    | none => simp [pointee, hr]
    | some r =>
        have hlt := h key' r hr
        simp [pointee, hr, PeerRecords.addPeer, List.getElem?_append_left hlt]

/-- `AddPeer` does the same to both. -/
theorem Represents.addPeer (h : Represents s t) (p : Peer) :
    Represents (s.addPeer p.name p.rpcUri p.connectionUri)
      (t.addPeer p.name p.rpcUri p.connectionUri) where
  names := h.names.addPeer p p.name
  connections := h.connections.addPeer p p.connectionUri
  nameToPeer name := by
    rw [PeerTracker.addPeer, lookup_insert_ite, ← h.nameToPeer]
    exact h.names.pointee_addPeer p p.name name
  connectionToPeer conn := by
    rw [PeerTracker.addPeer, lookup_insert_ite, ← h.connectionToPeer]
    exact h.connections.pointee_addPeer p p.connectionUri conn

/-- **Pointers and values.** After any calls both lookups of the tracker answer what they answer
with shared records. -/
theorem represents_run (calls : List Peer) :
    Represents (run {} calls) (PeerTracker.run {} calls) := by
  induction calls using List.reverseRecOn with
  | nil => exact represents_empty
  | append_singleton calls p ih =>
      rw [run_snoc, PeerTracker.run_append]
      exact ih.addPeer p

theorem Represents.getPeerFromName (h : Represents s t) (name : String) :
    t.getPeerFromName name = s.getPeerFromName name := by
  rw [PeerTracker.getPeerFromName, ← h.nameToPeer]
  rfl

theorem Represents.getPeerFromConnection (h : Represents s t) (conn : String) :
    t.getPeerFromConnection conn = s.getPeerFromConnection conn := by
  rw [PeerTracker.getPeerFromConnection, ← h.connectionToPeer]
  rfl

end Represents

/-- An index leads to the record of the latest call with the key. -/
theorem pointee_index (key : Peer → String) (calls : List Peer) (k : String) (p : Peer) :
    (run {} calls).pointee (index key calls) k = some p ↔ ∃ n, LatestAt key calls k n p := by
  rw [run_eq, pointee, Option.bind_eq_some_iff]
  simp only [lookup_index]
  constructor
  · rintro ⟨n, ⟨q, hq⟩, hp⟩
    obtain rfl := Option.some.inj (hq.getElem?.symm.trans hp)
    exact ⟨n, hq⟩
  · rintro ⟨n, hp⟩
    exact ⟨n, ⟨p, hp⟩, hp.getElem?⟩

end PeerRecords

namespace PeerTracker

/-- The latest call under a name decides what it leads to. -/
theorem lookup_name_run (calls : List Peer) (name : String) (p : Peer) :
    (run {} calls).nameToPeer.lookup name = some p ↔ ∃ n, LatestAt Peer.name calls name n p := by
  rw [← (PeerRecords.represents_run calls).nameToPeer, ← PeerRecords.pointee_index,
    PeerRecords.run_eq]

/-- The latest call over a connection decides what it leads to. -/
theorem lookup_connection_run (calls : List Peer) (conn : String) (p : Peer) :
    (run {} calls).connectionToPeer.lookup conn = some p ↔
      ∃ n, LatestAt Peer.connectionUri calls conn n p := by
  rw [← (PeerRecords.represents_run calls).connectionToPeer, ← PeerRecords.pointee_index,
    PeerRecords.run_eq]

/-- What a connection leads to is what its name leads to. -/
def IndexesAgree (t : PeerTracker) : Prop :=
  ∀ conn p, t.connectionToPeer.lookup conn = some p → t.nameToPeer.lookup p.name = some p

/-- Records are the same as soon as they are equal, for each shows its connection. -/
theorem indexesAgree_iff_records (calls : List Peer) :
    (run {} calls).IndexesAgree ↔ (PeerRecords.run {} calls).IndexesAgree := by
  rw [PeerRecords.indexesAgree_iff]
  simp only [IndexesAgree, lookup_name_run, lookup_connection_run]
  constructor
  · exact fun h => agree_of_entries fun conn n p hlatest => h conn p ⟨n, hlatest⟩
  · rintro h conn p ⟨n, hlatest⟩
    exact ⟨n, h conn n p hlatest⟩

end PeerTracker

/-! ## The tracker of the master -/

/-- The record that the request makes the master add. -/
def MasterRequest.addedPeer : MasterRequest → Option Peer
  | .introduce conn request =>
      request.address.map fun uri => ⟨StorageMaster.generateName request, uri, conn⟩
  | .storageChange _ => none

namespace StorageMaster

/-- The handlers change the tracker by calls of `AddPeer` only. -/
theorem peerTracker_run (es : List MasterRequest) :
    (run {} es).peerTracker = PeerTracker.run {} (es.filterMap MasterRequest.addedPeer) := by
  induction es using List.reverseRecOn with
  | nil => rfl
  | append_singleton es e ih =>
      rw [run_snoc, List.filterMap_append, PeerTracker.run_append, ← ih]
      cases e with
      | storageChange request => rfl
      | introduce conn request => cases request <;> rfl

/-- While no peer introduces itself over two connections, a connection leads to the peer that is
found under its name. -/
theorem indexesAgree_of_oneConnection {es : List MasterRequest}
    (h : ∀ conn request conn' request', .introduce conn request ∈ es →
      .introduce conn' request' ∈ es → generateName request = generateName request' →
        conn = conn') : (run {} es).peerTracker.IndexesAgree := by
  have hadded : ∀ p ∈ es.filterMap MasterRequest.addedPeer, ∃ request,
      .introduce p.connectionUri request ∈ es ∧ generateName request = p.name := by
    intro p hp
    obtain ⟨e, he, hadded⟩ := List.mem_filterMap.mp hp
    cases e with
    | storageChange request => cases hadded
    | introduce conn request =>
        obtain ⟨uri, _, rfl⟩ := Option.map_eq_some_iff.mp hadded
        exact ⟨request, he, rfl⟩
  rw [peerTracker_run, PeerTracker.indexesAgree_iff_records, PeerRecords.indexesAgree_iff]
  refine ((agree_throughout_iff_keepsIndexes _).mpr ?_).self
  rintro before p ⟨rest, hcalls⟩ pre earlier post rfl hname _
  obtain ⟨request, hrequest, hgenerated⟩ := hadded p (by simp [← hcalls])
  obtain ⟨request', hrequest', hgenerated'⟩ := hadded earlier (by simp [← hcalls])
  exact h _ _ _ _ hrequest' hrequest (by rw [hgenerated, hgenerated', hname])

end StorageMaster

end ProgrammableCaching
