import Mathlib.Data.Set.Insert
import Zyre.Node.ElectionMoves

/-!
# What a node holds and has told about one peer

`n.view X` collects the part of a node that belongs to the session with the peer `X`: its entry, the
groups it is listed in, the events about its session, and how many HELLO messages it was sent. Moves
change no view, and the primitives that do change one change only that of the peer they work on.
-/

namespace Zyre

/-- A peer object without what sending and the timers change. -/
def Peer.still (p : Peer) : Peer := { p with sentSequence := 0, evasiveAt := 0, expiredAt := 0 }

/-- The session with one peer, as a node sees it. -/
@[ext]
structure PeerView where
  entry : Option Peer
  groups : Set CStr
  log : List Event
  hellos : ℕ

/-- The views of all peers. -/
abbrev Views := CStr → PeerView

/-- Change the view of one peer. -/
def Views.at (V : Views) (X : CStr) (f : PeerView → PeerView) : Views := Function.update V X (f (V X))

namespace Views

variable {V : Views} {X Y : CStr} {f g : PeerView → PeerView}

/-- The view at the peer itself is changed, -/
@[simp]
theorem at_self : V.at X f X = f (V X) := Function.update_self ..

/-- and at every other one it is not. -/
@[simp]
theorem at_ne (h : Y ≠ X) : V.at X f Y = V Y := Function.update_of_ne h ..

/-- Two changes at one peer are one. -/
@[simp]
theorem at_at : (V.at X f).at X g = V.at X (g ∘ f) := by
  simp [Views.at, Function.update_idem]

/-- A change that does nothing there does nothing. -/
theorem at_id (h : f (V X) = V X) : V.at X f = V := by
  simp [Views.at, h, Function.update_eq_self]

/-- Changes that do the same there are the same. -/
theorem at_congr (h : f (V X) = g (V X)) : V.at X f = V.at X g := by
  simp [Views.at, h]

/-- Two families of views agree once they agree at `X` and elsewhere. -/
theorem eq_at {W : Views} (hX : W X = f (V X)) (hY : ∀ Y ≠ X, W Y = V Y) : W = V.at X f := by
  funext Y
  by_cases h : Y = X
  · subst h; simp [hX]
  · simp [h, hY Y h]

end Views

namespace Node

/-- The events about the session with `X`. -/
def log (n : Node) (X : CStr) : List Event := n.outbox.filter fun e => e.session = some X

/-- The groups that list `X`. -/
def groupsOf (n : Node) (X : CStr) : Set CStr := {name | X ∈ n.members name}

/-- The HELLO messages sent to `X`. -/
def hellosTo (n : Node) (X : CStr) : ℕ :=
  n.mail.countP fun m => m.1.identity = X ∧ m.2.id = .hello

/-- What the node holds and has told about `X`. -/
def view (n : Node) : Views := fun X =>
  ⟨(n.peers.lookup X).map Peer.still, n.groupsOf X, n.log X, n.hellosTo X⟩

variable {n n' : Node} {X Y : CStr} {r : PeerRef} {p : Peer} {K : Set MsgId}

@[simp] theorem view_log : (n.view X).log = n.log X := rfl

@[simp] theorem view_groups : (n.view X).groups = n.groupsOf X := rfl

@[simp] theorem view_entry : (n.view X).entry = (n.peers.lookup X).map Peer.still := rfl

@[simp] theorem view_hellos : (n.view X).hellos = n.hellosTo X := rfl

/-- The entry in the view is the one a pointer leads to. -/
theorem view_entry_of_deref (h : n.deref r = some p) :
    (n.view r.identity).entry = some p.still := by
  simp [lookup_of_deref h]

/-! ### What the primitives do to the views -/

/-- An event is added to the log of its session. -/
theorem view_emit (e : Event) :
    view { n with outbox := n.outbox ++ [e] } =
      match e.session with
      | none => n.view
      | some X => n.view.at X fun v => { v with log := v.log ++ [e] } := by
  cases he : e.session with
  | none =>
    funext Y
    have hlog : log { n with outbox := n.outbox ++ [e] } Y = n.log Y := by simp [log, he]
    exact PeerView.ext rfl rfl hlog rfl
  | some X =>
    refine Views.eq_at ?_ fun Y hY => ?_
    · have hlog : log { n with outbox := n.outbox ++ [e] } X = n.log X ++ [e] := by simp [log, he]
      exact PeerView.ext rfl rfl hlog rfl
    · have hlog : log { n with outbox := n.outbox ++ [e] } Y = n.log Y := by
        simp [log, he, Ne.symm hY]
      exact PeerView.ext rfl rfl hlog rfl

/-- A change to an entry. -/
theorem view_modifyPeer (f : Peer → Peer) :
    view { n with peers := n.peers.modify X f } =
      n.view.at X fun v => { v with entry := ((n.peers.lookup X).map f).map Peer.still } := by
  refine Views.eq_at ?_ fun Y hY => ?_
  · exact PeerView.ext (by simp) rfl rfl rfl
  · exact PeerView.ext (by simp [AList.lookup_modify_ne hY]) rfl rfl rfl

/-- An entry that is deleted. -/
theorem view_erase :
    view { n with peers := n.peers.erase X } =
      n.view.at X fun v => { v with entry := none } := by
  refine Views.eq_at ?_ fun Y hY => ?_
  · exact PeerView.ext (by simp) rfl rfl rfl
  · exact PeerView.ext (by simp [hY]) rfl rfl rfl

/-- An entry that is made. -/
theorem view_insert (k : ℕ) :
    view { n with peers := n.peers.insert X p, serial := k } =
      n.view.at X fun v => { v with entry := some p.still } := by
  refine Views.eq_at ?_ fun Y hY => ?_
  · exact PeerView.ext (by simp) rfl rfl rfl
  · exact PeerView.ext (by simp [AList.lookup_insert_ne hY]) rfl rfl rfl

/-- A change of the peer groups that keeps the members keeps the views. -/
theorem view_of_members {groups : AList fun _ : CStr => Group}
    (h : members { n with peerGroups := groups } = n.members) :
    view { n with peerGroups := groups } = n.view := by
  funext Y
  have hgroups : groupsOf { n with peerGroups := groups } Y = n.groupsOf Y := by
    simp only [groupsOf, h]
  exact PeerView.ext rfl hgroups rfl rfl

/-- Who is a member after a change to one group. -/
theorem mem_members_modify {name name' : CStr} {f : Group → Group} :
    Y ∈ members { n with peerGroups := n.peerGroups.modify name f } name' ↔
      Y ∈ (((n.peerGroups.lookup name').map
        fun g => if name' = name then f g else g).getD .new).peers := by
  simp only [members, AList.lookup_modify]
  split_ifs with h <;> simp

/-- A member is one of a group that is known. -/
theorem mem_members_iff {name : CStr} :
    Y ∈ n.members name ↔ ∃ g, n.peerGroups.lookup name = some g ∧ Y ∈ g.peers := by
  cases hg : n.peerGroups.lookup name with
  | none => simp [members, hg, Group.new, AList.notMem_empty]
  | some g => simp [members, hg]

/-- A peer that joins a group that is known. -/
theorem view_join {name : CStr} (h : name ∈ n.peerGroups) :
    view { n with peerGroups := n.peerGroups.modify name (·.join r) } =
      n.view.at r.identity fun v => { v with groups := insert name v.groups } := by
  obtain ⟨g, hg⟩ := Option.isSome_iff_exists.mp (AList.lookup_isSome.mpr h)
  have hmem : ∀ Y name', Y ∈ members { n with
      peerGroups := n.peerGroups.modify name (·.join r) } name' ↔
      (Y = r.identity ∧ name' = name) ∨ Y ∈ n.members name' := by
    intro Y name'
    rw [mem_members_modify]
    by_cases hname : name' = name
    · subst hname
      simp [hg, Group.join, members]
    · cases hg' : n.peerGroups.lookup name' <;> simp [hname, hg', members]
  refine Views.eq_at ?_ fun Y hY => ?_
  · refine PeerView.ext rfl (Set.ext fun name' => ?_) rfl rfl
    simpa [groupsOf] using hmem r.identity name'
  · refine PeerView.ext rfl (Set.ext fun name' => ?_) rfl rfl
    simpa [groupsOf, hY] using hmem Y name'

/-- A peer that leaves a group. -/
theorem view_leave {name : CStr} :
    view { n with peerGroups := n.peerGroups.modify name (·.leave r) } =
      n.view.at r.identity fun v => { v with groups := v.groups \ {name} } := by
  have hmem : ∀ Y name', Y ∈ members { n with
      peerGroups := n.peerGroups.modify name (·.leave r) } name' ↔
      Y ∈ n.members name' ∧ ¬(Y = r.identity ∧ name' = name) := by
    intro Y name'
    rw [mem_members_modify]
    by_cases hname : name' = name
    · subst hname
      cases hg : n.peerGroups.lookup name' with
      | none => simp [members, hg, Group.new, AList.notMem_empty]
      | some g => simp [Group.leave, members, hg, AList.mem_erase, and_comm]
    · cases hg : n.peerGroups.lookup name' <;> simp [hname, hg, members]
  refine Views.eq_at ?_ fun Y hY => ?_
  · refine PeerView.ext rfl (Set.ext fun name' => ?_) rfl rfl
    simpa [groupsOf] using hmem r.identity name'
  · refine PeerView.ext rfl (Set.ext fun name' => ?_) rfl rfl
    simpa [groupsOf, hY] using hmem Y name'

/-- A message appended to the mail. -/
theorem view_mail (m : PeerRef × Msg) :
    view { n with mail := n.mail ++ [m] } =
      if m.2.id = .hello then n.view.at m.1.identity fun v => { v with hellos := v.hellos + 1 }
      else n.view := by
  split_ifs with hid
  · refine Views.eq_at ?_ fun Y hY => ?_
    · exact PeerView.ext rfl rfl rfl (by simp [hellosTo, List.countP_append, hid])
    · exact PeerView.ext rfl rfl rfl
        (by simp [hellosTo, List.countP_append, Ne.symm hY])
  · funext Y
    exact PeerView.ext rfl rfl rfl (by simp [hellosTo, List.countP_append, hid])

/-! ### Moves -/

/-- A message other than HELLO is not in the view. -/
theorem view_posted {msg : Msg} (hid : msg.id ≠ .hello) : (n.posted r p msg).view = n.view := by
  let f : Peer → Peer := fun p => { p with sentSequence := p.sentSequence + 1 }
  have hmail := view_mail (n := { n with peers := n.peers.modify r.identity f })
    (r, msg.setSequence (p.sentSequence + 1))
  rw [if_neg (by simpa using hid)] at hmail
  refine hmail.trans ((view_modifyPeer _).trans (Views.at_id ?_))
  have hentry : ((n.peers.lookup r.identity).map f).map Peer.still =
      (n.peers.lookup r.identity).map Peer.still := by
    rw [Option.map_map]; rfl
  exact PeerView.ext hentry rfl rfl rfl

/-- A move that sends no HELLO leaves the view. -/
theorem Move.view (hK : .hello ∉ K) (h : Move K n n') : n'.view = n.view := by
  cases h with
  | send r p msg hr hc hid => exact view_posted fun hhello => hK (hhello ▸ hid)
  | group name f hf => exact view_of_members (members_modify fun g hg => (hf g hg).peers)
  | addGroup name => exact view_of_members members_insertNew
  | emit e he => rw [view_emit, he]

/-- And so do many. -/
theorem Moves.view (hK : .hello ∉ K) (h : Moves K n n') : n'.view = n.view :=
  Moves.keep (fun _ _ hmove => hmove.view hK) h

/-- The mail of `n'` is that of `n` and further messages with commands in `K`. -/
def Grows (K : Set MsgId) (n n' : Node) : Prop :=
  ∃ ms, n'.mail = n.mail ++ ms ∧ ∀ m ∈ ms, m.2.id ∈ K

theorem Grows.refl : Grows K n n := ⟨[], by simp⟩

theorem Grows.of_eq (h : n'.mail = n.mail) : Grows K n n' := ⟨[], by simp [h]⟩

/-- Mail that grows and grows again. -/
theorem Grows.trans {n'' : Node} (h : Grows K n n') (h' : Grows K n' n'') : Grows K n n'' := by
  obtain ⟨ms, hms, hids⟩ := h
  obtain ⟨ms', hms', hids'⟩ := h'
  refine ⟨ms ++ ms', by rw [hms', hms, List.append_assoc], fun m hm => ?_⟩
  rcases List.mem_append.mp hm with hm | hm
  · exact hids m hm
  · exact hids' m hm

/-- More commands may be sent. -/
theorem Grows.mono {K' : Set MsgId} (h : Grows K n n') (hK : K ⊆ K') : Grows K' n n' := by
  obtain ⟨ms, hms, hids⟩ := h
  exact ⟨ms, hms, fun m hm => hK (hids m hm)⟩

/-- A move only adds to the mail, and only what it may send. -/
theorem Moves.grows (h : Moves K n n') : Grows K n n' := by
  induction h with
  | refl => exact .refl
  | tail _ hmove ih =>
    refine ih.trans ?_
    cases hmove with
    | send r p msg hr hc hid => exact ⟨_, rfl, fun m hm => by simpa [List.mem_singleton.mp hm]⟩
    | group name f hf => exact .refl
    | addGroup name => exact .refl
    | emit e he => exact .refl

/-! ### Reaching a family of views -/

/-- `n'` has the views `V` and otherwise what `n` has: the node's own state is the same, and the
mail has grown by commands in `K`. -/
structure Becomes (K : Set MsgId) (n : Node) (V : Views) (n' : Node) : Prop where
  view : n'.view = V
  own : n'.own = n.own
  contested : n'.contested = n.contested
  grows : Grows K n n'

/-- The events of `n'` do not go beyond those in `V`. -/
def Within (V : Views) (n' : Node) : Prop := ∀ Y, n'.log Y <+: (V Y).log

variable {V V' : Views} {n'' : Node}

/-- The view a program ends in, through that of another one. -/
theorem Becomes.trans (h : Becomes K n V n') (h' : Becomes K n' V' n'') : Becomes K n V' n'' :=
  ⟨h'.view, h'.own.trans h.own, h'.contested.trans h.contested, h.grows.trans h'.grows⟩

theorem Becomes.mono {K' : Set MsgId} (h : Becomes K n V n') (hK : K ⊆ K') : Becomes K' n V n' :=
  ⟨h.view, h.own, h.contested, h.grows.mono hK⟩

/-- What becomes a view has its logs. -/
theorem Becomes.within (h : Becomes K n V n') : Within V n' := fun Y => by
  rw [← h.view]; exact List.prefix_refl _

/-- Logs that go on are longer. -/
theorem Within.mono (h : Within V n') (hV : ∀ Y, (V Y).log <+: (V' Y).log) : Within V' n' :=
  fun Y => (h Y).trans (hV Y)

/-- A move that sends no HELLO ends in the view it began with. -/
theorem Moves.becomes (hK : .hello ∉ K) (h : Moves K n n') : Becomes K n n.view n' :=
  ⟨h.view hK, h.own, h.contested, h.grows⟩

/-- A program of moves, in terms of views. -/
theorem becomes_of_keeps {α : Type} {x : NodeM α} {B : Fault → Node → Prop} (hK : .hello ∉ K)
    (h : x.Keeps (Moves K) B n) :
    x.wp (fun _ n' => Becomes K n n.view n') (fun _ n' => Within n.view n') n :=
  EStateM.wp_mono h (fun _ _ hmoves => hmoves.becomes hK)
    fun _ _ hmoves => (hmoves.1.becomes hK).within

end Node

end Zyre
