import Zyre.Peer

/-!
# Groups and their elections

`Election` is a running leader election (`zyre_election_t`) and `Group` a group known to the node
(`zyre_group_t`). Both hold peers by pointer. The counters `erec` and `lrec` are `unsigned int`
in the source, and come back to zero after 2^32 messages.
-/

namespace Zyre

/-- `struct _zyre_election_t`. -/
structure Election where
  caw : Option CStr
  father : Option PeerRef
  erec : UInt32
  lrec : UInt32
  leader : Option CStr
deriving DecidableEq

namespace Election

/-- `zyre_election_new`. -/
def new : Election := ⟨none, none, 0, 0, none⟩

/-- `zyre_election_challenger_superior`. -/
def challengerSuperior (e : Election) (r : CStr) : Bool :=
  match e.caw with
  | none => true
  | some caw => decide (r < caw)

/-- `zyre_election_reset`. -/
def reset (_ : Election) : Election := new

/-- `zyre_election_set_caw`. -/
def setCaw (e : Election) (caw : CStr) : Election := { e with caw := some caw }

/-- `zyre_election_set_father`. -/
def setFather (e : Election) (father : PeerRef) : Election := { e with father := some father }

/-- `zyre_election_increment_erec`. -/
def incrementErec (e : Election) : Election := { e with erec := e.erec + 1 }

/-- `zyre_election_increment_lrec`. -/
def incrementLrec (e : Election) : Election := { e with lrec := e.lrec + 1 }

/-- `zyre_election_set_leader`. -/
def setLeader (e : Election) (leader : CStr) : Election := { e with leader := some leader }

/-- `zyre_election_lrec_started`. -/
def lrecStarted (e : Election) : Bool := decide (0 < e.lrec)

end Election

/-- `struct _zyre_group_t`; the name is the key it is stored under. -/
structure Group where
  peers : AList fun _ : CStr => PeerRef
  contest : Bool
  leader : Option PeerRef
  election : Option Election
deriving DecidableEq

namespace Group

/-- `zyre_group_new`. -/
def new : Group := ⟨∅, false, none, none⟩

/-- The table part of `zyre_group_join`. -/
def join (g : Group) (peer : PeerRef) : Group :=
  { g with peers := g.peers.insertNew peer.identity peer }

/-- The table part of `zyre_group_leave`. -/
def leave (g : Group) (peer : PeerRef) : Group :=
  { g with peers := g.peers.erase peer.identity }

/-- The size of the list `zyre_group_peers` returns. -/
def size (g : Group) : ℕ := g.peers.keys.length

/-- `zyre_group_require_election`. -/
def requireElection (g : Group) : Group := { g with election := some (g.election.getD .new) }

end Group

/-- `zyre_election_erec_complete`: the `unsigned int` is compared with a `size_t`. -/
def Election.erecComplete (e : Election) (g : Group) : Bool := decide (e.erec.toNat = g.size)

/-- `zyre_election_lrec_complete`. -/
def Election.lrecComplete (e : Election) (g : Group) : Bool := decide (e.lrec.toNat = g.size)

end Zyre
