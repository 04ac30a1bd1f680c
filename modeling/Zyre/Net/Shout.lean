import Zyre.Net.Basic
import Zyre.Node.Additions
import Zyre.Node.Inbox
import Zyre.Node.Post

/-!
# SHOUT and the groups of its receiver

A node sends SHOUT to those it has listed as members of the group, and it lists a peer as a member because
the peer has said so in a HELLO or a JOIN. So the group in a SHOUT is one that the receiver has joined
before (`truthful_of_run`), by the name it has on the wire. But nobody asks whether the receiver is still in
it: a SHOUT that was sent before the receiver's LEAVE arrived is told to the application all the same.

`shoutsHome_of_run` is about mailboxes that keep the order (`Fifo`). There every SHOUT event is of a group
the node is in, if nobody leaves a group while a SHOUT to it is under way to him, and nobody sends one to
members that are no longer in the group (`Orderly`): then every SHOUT under way is to a group its receiver
is in (`Homing`).
-/

namespace Zyre

/-- Cutting a name twice at the same length cuts it once. -/
theorem CStr.truncate_truncate (k : ℕ) (s : CStr) : (s.truncate k).truncate k = s.truncate k :=
  CStr.truncate_of_length_le (CStr.length_truncate_le k s)

/-- `J` says which node has joined which groups; on the wire such a group may be cut. -/
def OnWire (J : CStr → CStr → Prop) (X group : CStr) : Prop :=
  ∃ name, J X name ∧ group = name.truncate Msg.fieldSize

/-- The group, as others know it, is one that `X` has joined. -/
def Known (J : CStr → CStr → Prop) (X group : CStr) : Prop :=
  ∃ name, J X name ∧ group.truncate Msg.fieldSize = name.truncate Msg.fieldSize

variable {J : CStr → CStr → Prop} {X name : CStr}

/-- A group joined is known under its name. -/
theorem known_of_joined (h : J X name) : Known J X name := ⟨name, h, rfl⟩

/-- A name on the wire belongs to a group that has been joined. -/
theorem OnWire.known (h : OnWire J X name) : Known J X name := by
  obtain ⟨name', hname', rfl⟩ := h
  exact ⟨name', hname', CStr.truncate_truncate _ _⟩

/-- A known name is on the wire in its cut form. -/
theorem Known.onWire (h : Known J X name) : OnWire J X (name.truncate Msg.fieldSize) := h

/-- What a message from `X` to `Y` says of groups is so. -/
structure Tells (J : CStr → CStr → Prop) (X Y : CStr) (msg : Msg) : Prop where
  hello : msg.id = .hello → msg.endpoint.length < 256 ∧
    ∃ groups, msg.groups = some groups ∧ ∀ name ∈ groups, J X name
  join : msg.id = .join → OnWire J X msg.group
  shout : msg.id = .shout → OnWire J Y msg.group

/-- A message that tells the truth goes on doing so when more groups have been joined. -/
theorem Tells.mono {K : CStr → CStr → Prop} {Y : CStr} {msg : Msg} (hmsg : Tells J X Y msg)
    (h : ∀ X name, J X name → K X name) : Tells K X Y msg where
  hello hid := by
    obtain ⟨hendpoint, groups, hgroups, hjoined⟩ := hmsg.hello hid
    exact ⟨hendpoint, groups, hgroups, fun name hname => h _ _ (hjoined name hname)⟩
  join hid := by
    obtain ⟨name, hname, hcut⟩ := hmsg.join hid
    exact ⟨name, h _ _ hname, hcut⟩
  shout hid := by
    obtain ⟨name, hname, hcut⟩ := hmsg.shout hid
    exact ⟨name, h _ _ hname, hcut⟩

namespace Node

variable {n n' : Node} {S : Supply}

/-- The node is in no group that it has not joined, lists no peer in a group that the peer has not, and has
told nobody otherwise. -/
structure Truthful (J : CStr → CStr → Prop) (n : Node) : Prop where
  own : ∀ name ∈ n.ownGroups, J n.identity name
  members : ∀ name X r, (n.members name).lookup X = some r → r.identity = X ∧ Known J X name
  mail : ∀ m ∈ n.mail, Tells J n.identity m.1.identity m.2

/-- A new node says nothing untrue. -/
theorem truthful_new (uuid : Uuid) (endpoint : CStr) : Truthful J (Node.new uuid endpoint) where
  own _ h := nomatch h
  members _ _ _ h := nomatch h
  mail _ h := nomatch h

/-- A node that tells the truth goes on doing so when more groups have been joined. -/
theorem Truthful.mono {K : CStr → CStr → Prop} (hn : Truthful J n) (h : ∀ X name, J X name → K X name) :
    Truthful K n where
  own name hname := h _ _ (hn.own name hname)
  members name X r hr := by
    obtain ⟨hX, name', hname', hcut⟩ := hn.members name X r hr
    exact ⟨hX, name', h _ _ hname', hcut⟩
  mail m hm := (hn.mail m hm).mono h

/-- Nothing has changed about groups. -/
theorem Truthful.congr (hn : Truthful J n) (hmembers : n'.members = n.members) (hmail : n'.mail = n.mail)
    (huuid : n'.uuid = n.uuid) (hown : n'.ownGroups = n.ownGroups) : Truthful J n' := by
  have hidentity : n'.identity = n.identity := congrArg Uuid.str huuid
  refine ⟨?_, ?_, ?_⟩
  · rw [hown, hidentity]
    exact hn.own
  · rw [hmembers]
    exact hn.members
  · rw [hmail, hidentity]
    exact hn.mail

/-- The HELLO to a new peer lists the groups the node is in. -/
theorem Truthful.tells_hello (hn : Truthful J n) (env : Env) (Y : CStr) (k : UInt16) :
    Tells J n.identity Y ((helloMsg env n).setSequence k) := by
  have hid : ((helloMsg env n).setSequence k).id = .hello := by rw [Msg.setSequence_id, helloMsg_id]
  refine ⟨fun _ => ⟨?_, n.ownGroups, rfl, hn.own⟩, fun h => ?_, fun h => ?_⟩
  · simp only [helloMsg, Msg.setSequence]
    split_ifs <;> exact Nat.lt_succ_of_le (CStr.length_truncate_le _ _)
  · cases hid.symm.trans h
  · cases hid.symm.trans h

/-- What a node says of groups is so, if what the supply says is. -/
theorem Says.tells {r : PeerRef} {msg : Msg} (h : Says S n r msg) (hn : Truthful J n)
    (hjoins : ∀ name ∈ S.joins, J n.identity name) (k : UInt16) :
    Tells J n.identity r.identity (msg.setSequence k) := by
  unfold Says at h
  refine ⟨fun hid => ?_, fun hid => ?_, fun hid => ?_⟩
  · rw [Msg.setSequence_id] at hid
    rw [hid] at h
    exact h.elim
  · rw [Msg.setSequence_id] at hid
    rw [hid] at h
    obtain ⟨name, hname, hcut⟩ := h
    exact ⟨name, hjoins name hname, hcut⟩
  · rw [Msg.setSequence_id] at hid
    rw [hid] at h
    obtain ⟨name, -, X, hr, hcut⟩ := h
    obtain ⟨rfl, hknown⟩ := hn.members name X r hr
    show OnWire J r.identity msg.group
    exact hcut ▸ hknown.onWire

/-- What the supply says is so, and then what a node makes of it is. -/
theorem Act.truthful (hjoins : ∀ name ∈ S.joins, J n.identity name)
    (hmembers : ∀ m ∈ S.members, Known J m.1 m.2) (h : Act S n n') (hn : Truthful J n) :
    Truthful J n' := by
  have hone : ∀ m, Tells J n.identity m.1.identity m.2 →
      ∀ m' ∈ n.mail ++ [m], Tells J n.identity m'.1.identity m'.2 := by
    intro m hm m' hm'
    rcases List.mem_append.mp hm' with hm' | hm'
    · exact hn.mail m' hm'
    · exact List.mem_singleton.mp hm' ▸ hm
  cases h with
  | addGroup name hname => exact hn.congr members_insertNew rfl rfl rfl
  | group name f hf => exact hn.congr (members_modify fun g _ => hf g) rfl rfl rfl
  | join name r hr =>
    refine { hn with members := fun name' X r' hr' => ?_ }
    rcases lookup_members_join hr' with h | ⟨rfl, rfl, rfl⟩
    · exact hn.members name' X r' h
    · exact ⟨rfl, hmembers _ hr⟩
  | leave name r =>
    exact { hn with members := fun name' X r' hr' => hn.members name' X r' (lookup_members_leave hr') }
  | tell e he => exact hn.congr rfl rfl rfl rfl
  | send r p msg hmsg =>
    exact { hn with mail := hone _ (hmsg.tells hn hjoins _) }
  | greet env X endpoint key => exact { hn with mail := hone _ (hn.tells_hello env X 1) }
  | know hgroups houtbox hmail huuid hown hendpoint hadvertised =>
    exact hn.congr (by unfold members; rw [hgroups]) hmail huuid hown
  | move endpoint advertised haddress => exact hn.congr rfl rfl rfl rfl
  | regroup own status hown hkept =>
    refine { hn with own := fun name hname => ?_ }
    rcases hown name hname with hname | hname
    · exact hn.own name hname
    · exact hjoins name hname

/-- **What a step sends and stores** tells the truth if the memberships it takes in do. -/
theorem Acts.truthful (hjoins : ∀ name ∈ S.joins, J n.identity name)
    (hmembers : ∀ m ∈ S.members, Known J m.1 m.2) (h : Acts S n n') (hn : Truthful J n) :
    Truthful J n' := by
  have hboth : n'.identity = n.identity ∧ Truthful J n' := by
    induction h with
    | refl => exact ⟨rfl, hn⟩
    | tail _ hact ih =>
      obtain ⟨hidentity, htruthful⟩ := ih
      refine ⟨(congrArg Uuid.str hact.uuid_eq).trans hidentity, ?_⟩
      exact hact.truthful (fun name hname => hidentity ▸ hjoins name hname) hmembers htruthful
  exact hboth.2

end Node

namespace Net

variable {net net' : Net} {trace : List (Uuid × Input)} {u v : Uuid} {env : Env} {input : Input}
  {C : Input → Prop} {msg : Msg}

/-! ### The groups that were joined -/

/-- A node of this identity has called JOIN for the group. -/
def HasJoined (trace : List (Uuid × Input)) (identity group : CStr) : Prop :=
  ∃ v, v.str = identity ∧ (v, .api (.join group)) ∈ trace

/-- The names of the groups a node joins fit a HELLO. -/
def JoinsFit (input : Input) : Prop := ∀ group, input = .api (.join group) → group.length < 2 ^ 32

/-- In a run whose calls give names that fit, every name joined fits. -/
theorem Run.joins_fit (h : Run JoinsFit trace net) {X group : CStr} (hjoined : HasJoined trace X group) :
    group.length < 2 ^ 32 := by
  obtain ⟨v, -, hmem⟩ := hjoined
  induction h with
  | start endpoint => exact absurd hmem List.not_mem_nil
  | step u env input n' hrun hoffers hinput hstep ih =>
    rcases List.mem_append.mp hmem with hmem | hmem
    · exact ih hmem
    · exact hinput group (Prod.mk.inj (List.mem_singleton.mp hmem)).2.symm

/-- What ROUTER puts in front of a message names the node that sent it. -/
theorem senderOf_deliver {uuid : Uuid} (h : Node.senderOf ((1 :: v.data) :: msg.frames) = some uuid) :
    uuid = v := by
  have hidentity := Node.recv_routingId (1 :: v.data) msg.encode msg.contentFrames
  unfold Node.senderOf at h
  split_ifs at h with hc
  obtain rfl := Option.some_inj.mp h
  have hdata : (Msg.recv ((1 :: v.data) :: msg.frames)).routingId.drop 1 = v.data := by
    rw [Msg.frames, hidentity, List.drop_one, List.tail_cons]
  cases v
  simp only [hdata]

/-- What arrives in HELLO and JOIN about the groups of the sender is so if what was sent is. -/
theorem known_of_lists {Y name : CStr} {identity : Frame} (htells : Tells J X Y msg)
    (hfit : ∀ X name, J X name → name.length < 2 ^ 32)
    (hname : name ∈ (Msg.recv (identity :: msg.frames)).msg.lists) : Known J X name := by
  have hid := id_recv msg identity
  rcases Msg.mem_lists_iff.mp hname with ⟨hhello, hlisted⟩ | ⟨hjoin, rfl⟩
  · rw [hid] at hhello
    obtain ⟨hendpoint, groups, hgroups, hjoined⟩ := htells.hello hhello
    have hmem := hello_recv hhello hendpoint hgroups (fun name hname => hfit _ _ (hjoined name hname))
      identity hlisted
    exact known_of_joined (hjoined name hmem)
  · rw [hid] at hjoin
    have hwire := htells.join hjoin
    have hlength : msg.group.length < 256 := by
      obtain ⟨name, -, hcut⟩ := hwire
      exact hcut ▸ Nat.lt_succ_of_le (CStr.length_truncate_le _ _)
    have hfits : msg.Fits := ⟨by simp [hjoin], by simp [hjoin], by simp [hjoin], fun _ => hlength⟩
    obtain ⟨-, -, hcarries⟩ := carries_recv hfits identity
    rw [(hcarries.group (Or.inl hjoin)).1]
    exact hwire.known

/-- Whatever a node lists a peer in, and whatever SHOUT it sends to a peer, the peer has joined the group,
by this name or by a longer one that is cut on the wire. -/
theorem truthful_of_run (h : Run JoinsFit trace net) (u : Uuid) :
    (net u).Truthful (HasJoined trace) := by
  induction h generalizing u with
  | start endpoint => exact Node.truthful_new u (endpoint u)
  | @step trace net w env input n' hrun hoffers hinput hstep ih =>
    have hmono : ∀ X name, HasJoined trace X name → HasJoined (trace ++ [(w, input)]) X name :=
      fun X name ⟨v, hv, hmem⟩ => ⟨v, hv, List.mem_append_left _ hmem⟩
    rcases eq_or_ne u w with rfl | hne
    swap
    · rw [Function.update_of_ne hne]
      exact (ih u).mono hmono
    rw [Function.update_self]
    have hfit : ∀ X name, HasJoined (trace ++ [(u, input)]) X name → name.length < 2 ^ 32 := fun X name =>
      (Run.step u env input n' hrun hoffers hinput hstep).joins_fit
    refine Node.Acts.truthful ?_ ?_ hstep.acts ((ih u).mono hmono)
    · rintro name (rfl : input = _)
      exact ⟨u, by rw [Node.identity, hrun.uuid], by simp⟩
    · rintro ⟨X, name⟩ ⟨frames, uuid, rfl, hsender, rfl, -, hname⟩
      obtain ⟨v, sent, ⟨r, hsent, -⟩, rfl⟩ := hoffers.sent
      obtain rfl := senderOf_deliver hsender
      have htells := ((ih uuid).mono hmono).mail _ hsent
      rw [Node.identity, hrun.uuid] at htells
      exact known_of_lists htells hfit hname

end Net

/-! ### Mailboxes that keep the order -/

/-- A network whose mailboxes keep the order: of the messages `v` has sent to `u`, the first `taken v u` are
behind `u`. -/
structure Fifo where
  net : Net
  taken : Uuid → Uuid → ℕ

namespace Fifo

variable {F F' : Fifo} {u v w : Uuid} {env : Env} {input : Input} {n' : Node} {msg : Msg}
  {C : Fifo → Uuid → Input → Prop}

/-- The messages from `v` that `u` has still to handle. -/
def underWay (F : Fifo) (v u : Uuid) : List Msg :=
  (((F.net v).mailTo u.str).drop (F.taken v u)).map Prod.snd

/-- The node `u` handles an input: one of the messages under way to it, where those before are lost, or
anything that is not a message. -/
inductive Step (F : Fifo) (u : Uuid) (env : Env) : Input → Fifo → Prop
  | deliver (v : Uuid) (lost : List Msg) (msg : Msg) (later : List Msg) (n' : Node)
      (hmsg : F.underWay v u = lost ++ msg :: later)
      (hstep : Node.Leaves (Node.step env (.inbox ((1 :: v.data) :: msg.frames))) (F.net u) n') :
      Step F u env (.inbox ((1 :: v.data) :: msg.frames))
        ⟨Function.update F.net u n',
          Function.update F.taken v (Function.update (F.taken v) u (F.taken v u + (lost.length + 1)))⟩
  | other (input : Input) (n' : Node) (hinput : ∀ frames, input ≠ .inbox frames)
      (hstep : Node.Leaves (Node.step env input) (F.net u) n') :
      Step F u env input { F with net := Function.update F.net u n' }

/-- A run whose steps satisfy `C`. -/
inductive Run (C : Fifo → Uuid → Input → Prop) : Fifo → Prop
  | start (endpoint : Uuid → CStr) : Run C ⟨fun u => Node.new u (endpoint u), fun _ _ => 0⟩
  | step {F F' : Fifo} (u : Uuid) (env : Env) (input : Input) (hrun : Run C F) (hc : C F u input)
      (hstep : F.Step u env input F') : Run C F'

/-- A run that satisfies a condition satisfies any weaker one. -/
theorem Run.mono {C' : Fifo → Uuid → Input → Prop} (h : Run C F)
    (hC : ∀ F u input, C F u input → C' F u input) : Run C' F := by
  induction h with
  | start endpoint => exact .start endpoint
  | step u env input hrun hc hstep ih => exact ih.step u env input (hC _ _ _ hc) hstep

/-- What a step does to the node that takes it, and to the counts. -/
theorem Step.node (h : F.Step u env input F') : ∃ n', F'.net = Function.update F.net u n' ∧
    Node.Leaves (Node.step env input) (F.net u) n' ∧ ∀ v w, F.taken v w ≤ F'.taken v w := by
  cases h with
  | deliver v lost msg later n' hmsg hstep =>
    refine ⟨n', rfl, hstep, fun x w => ?_⟩
    show F.taken x w ≤ Function.update F.taken v (Function.update (F.taken v) u _) x w
    rcases eq_or_ne x v with rfl | hx
    · rw [Function.update_self]
      rcases eq_or_ne w u with rfl | hw
      · rw [Function.update_self]
        exact Nat.le_add_right _ _
      · rw [Function.update_of_ne hw]
    · rw [Function.update_of_ne hx]
  | other input n' hinput hstep => exact ⟨n', rfl, hstep, fun _ _ => le_rfl⟩

/-! ### Who is shouted at -/

/-- Nobody leaves a group while a SHOUT to it is under way to him, and a SHOUT goes only to nodes that are
in its group, by the name that fits the format. -/
def Orderly (F : Fifo) (u : Uuid) : Input → Prop
  | .api (.leave group) => ∀ v, ∀ msg ∈ F.underWay v u, msg.id = .shout → msg.group ≠ group
  | .api (.shout group _) => ∀ w : Uuid, w.str ∈ (F.net u).members group →
      group.truncate Msg.fieldSize ∈ (F.net w).ownGroups
  | _ => True

/-- Every SHOUT under way is to a group its receiver is in. -/
structure Homing (F : Fifo) : Prop where
  named : ∀ u name X r, ((F.net u).members name).lookup X = some r → r.identity = X
  home : ∀ v u, ∀ msg ∈ F.underWay v u, msg.id = .shout →
    msg.group.length ≤ Msg.fieldSize ∧ msg.group ∈ (F.net u).ownGroups

/-- At the start nothing is under way. -/
theorem homing_start (endpoint : Uuid → CStr) :
    Homing ⟨fun u => Node.new u (endpoint u), fun _ _ => 0⟩ where
  named _ _ _ _ h := nomatch h
  home _ _ _ h := nomatch h

/-- A node leaves a group only if it calls LEAVE, and then no SHOUT to the group is under way to it. -/
theorem Homing.stays (hF : F.Homing) (hc : F.Orderly u input)
    (hstep : Node.Leaves (Node.step env input) (F.net u) n') (hmsg : msg ∈ F.underWay v u)
    (hid : msg.id = .shout) : msg.group ∈ n'.ownGroups := by
  refine hstep.acts.keeps_own (hF.home v u msg hmsg hid).2 ?_
  rintro (rfl : input = _)
  exact hc v msg hmsg hid rfl

/-- What a node sends is a SHOUT only if it has been called to, and goes to nodes that are in the group. -/
theorem Homing.sends (hF : F.Homing) (hc : F.Orderly u input)
    (hstep : Node.Leaves (Node.step env input) (F.net u) n') : ∃ ms, n'.mail = (F.net u).mail ++ ms ∧
      ∀ m ∈ ms, m.2.id = .shout → (∀ group, input ≠ .api (.leave group)) ∧
        m.2.group.length ≤ Msg.fieldSize ∧
          ∀ w : Uuid, m.1.identity = w.str → m.2.group ∈ (F.net w).ownGroups := by
  obtain ⟨ms, hms, hshouts⟩ := hstep.acts.shouts
  refine ⟨ms, hms, fun m hm hid => ?_⟩
  obtain ⟨name, ⟨content, rfl⟩, hcut, X, hmember | ⟨-, frames, uuid, hinput, -⟩⟩ := hshouts m hm hid
  · rw [hcut]
    refine ⟨nofun, CStr.length_truncate_le _ _, fun w hw => hc w ?_⟩
    rw [← hw, hF.named u name X _ hmember]
    exact AList.lookup_isSome.mp (by rw [hmember]; rfl)
  · cases hinput

/-- One step that satisfies the condition. -/
theorem Homing.step (hF : F.Homing) (hc : F.Orderly u input) (h : F.Step u env input F') : F'.Homing := by
  obtain ⟨n', hnet, hstep, htaken⟩ := h.node
  constructor
  · intro w name X r hr
    rw [hnet] at hr
    rcases eq_or_ne w u with rfl | hw
    · rw [Function.update_self] at hr
      rcases hstep.acts.members hr with hr | ⟨hX, -⟩
      · exact hF.named w name X r hr
      · exact hX
    · rw [Function.update_of_ne hw] at hr
      exact hF.named w name X r hr
  · intro v w msg hmsg hid
    obtain ⟨ms, hms, hsent⟩ := hF.sends hc hstep
    -- The message was under way before, or the node has just sent it.
    have hcases : msg ∈ F.underWay v w ∨ v = u ∧ ∃ r, (r, msg) ∈ ms ∧ r.identity = w.str := by
      obtain ⟨⟨r, msg⟩, hm, rfl⟩ := List.mem_map.mp hmsg
      have hdrop := List.drop_subset_drop_left ((F'.net v).mailTo w.str) (htaken v w) hm
      rcases eq_or_ne v u with rfl | hv
      · rw [hnet, Function.update_self, Node.mailTo, hms, List.filter_append, List.drop_append] at hdrop
        rcases List.mem_append.mp hdrop with hm | hm
        · exact Or.inl (List.mem_map_of_mem hm)
        · obtain ⟨hm, hto⟩ := List.mem_filter.mp (List.mem_of_mem_drop hm)
          exact Or.inr ⟨rfl, r, hm, by simpa using hto⟩
      · rw [hnet, Function.update_of_ne hv] at hdrop
        exact Or.inl (List.mem_map_of_mem hdrop)
    have hstays : ∀ group, group ∈ (F.net w).ownGroups → (w = u → group ∈ n'.ownGroups) →
        group ∈ (F'.net w).ownGroups := by
      intro group hown hkept
      rw [hnet]
      rcases eq_or_ne w u with rfl | hw
      · rw [Function.update_self]
        exact hkept rfl
      · rwa [Function.update_of_ne hw]
    rcases hcases with hold | ⟨rfl, r, hm, hto⟩
    · obtain ⟨hlength, hown⟩ := hF.home v w msg hold hid
      refine ⟨hlength, hstays _ hown ?_⟩
      rintro rfl
      exact hF.stays hc hstep hold hid
    · obtain ⟨hstay, hlength, hhome⟩ := hsent _ hm hid
      refine ⟨hlength, hstays _ (hhome w hto) ?_⟩
      rintro rfl
      exact hstep.acts.keeps_own (hhome w hto) (hstay _)

/-- **In an orderly run** every SHOUT under way is to a group its receiver is in, whatever has been
delivered so far. -/
theorem Run.homing (h : Run Orderly F) : F.Homing := by
  induction h with
  | start endpoint => exact homing_start endpoint
  | step u env input hrun hc hstep ih => exact ih.step hc hstep

/-! ### SHOUT events -/

/-- Every SHOUT event of the iteration names a group that the node is in when it puts the event out. -/
def ShoutsHome (n n' : Node) : Prop :=
  ∃ es, n'.outbox = n.outbox ++ es ∧
    ∀ X name group content, .shout X name group content ∈ es → group ∈ n.ownGroups ∧ group ∈ n'.ownGroups

/-- **SHOUT events of own groups.** If nobody leaves a group while a SHOUT to it is under way to him, and
SHOUT goes only to nodes that are in the group, then every SHOUT event is of one of the node's own groups.
The invariant `Homing` says of every SHOUT under way that its receiver is in the group; the branch for SHOUT
does not look. -/
theorem shoutsHome_of_run (h : Run Orderly F) (hstep : F.Step u env input F') :
    ShoutsHome (F.net u) (F'.net u) := by
  cases hstep with
  | deliver v lost msg later n' hmsg hstep =>
    simp only [Function.update_self]
    obtain ⟨-, es, hes, htold⟩ := hstep.acts.adds
    refine ⟨es, hes, fun X name group content hmem => ?_⟩
    rcases (htold _ hmem).resolve_left nofun with ⟨frames, uuid, name', hinput, -, -, hid, heq⟩ |
      ⟨visited, Y, name', hinput, -, -⟩
    swap
    · cases hinput
    obtain rfl := Input.inbox.inj hinput
    obtain ⟨-, -, rfl, -⟩ := Event.shout.inj heq
    rw [id_recv] at hid
    obtain ⟨hlength, hown⟩ := h.homing.home v u msg (hmsg ▸ by simp) hid
    rw [shout_recv hid (Nat.lt_succ_of_le hlength)]
    exact ⟨hown, hstep.acts.keeps_own hown nofun⟩
  | other input n' hinput hstep =>
    simp only [Function.update_self]
    obtain ⟨-, es, hes, htold⟩ := hstep.acts.adds
    refine ⟨es, hes, fun X name group content hmem => ?_⟩
    rcases (htold _ hmem).resolve_left nofun with ⟨frames, uuid, name', hinbox, -⟩ |
      ⟨visited, Y, name', -, -, heq⟩
    · exact absurd hinbox (hinput frames)
    · cases heq

/-- The network once `u` has handled an input that is not a message. -/
def call (F : Fifo) (u : Uuid) (env : Env) (input : Input) : Fifo := { F with net := F.net.after u env input }

/-- The network once `u` has handled the next message from `v`, if there is one. -/
def next (F : Fifo) (v u : Uuid) (env : Env) : Fifo :=
  match F.underWay v u with
  | [] => F
  | msg :: _ => ⟨F.net.after u env (.inbox ((1 :: v.data) :: msg.frames)),
      Function.update F.taken v (Function.update (F.taken v) u (F.taken v u + 1))⟩

/-- The first message under way from one node to another can be delivered. -/
theorem step_next (hmsg : F.underWay v u ≠ []) (env : Env) :
    ∃ msg : Msg, F.Step u env (.inbox ((1 :: v.data) :: msg.frames)) (F.next v u env) := by
  unfold next
  split
  next hnone => exact absurd hnone hmsg
  next msg later hsome => exact ⟨msg, .deliver v [] msg later _ hsome (Node.leaves_final _ _)⟩

/-- A run goes on by a call. -/
theorem Run.call (h : Run C F) (u : Uuid) (env : Env) (input : Input) (hinput : ∀ frames, input ≠ .inbox frames)
    (hc : C F u input) : Run C (F.call u env input) :=
  h.step u env input hc (.other input _ hinput (Node.leaves_final _ _))

/-- A run goes on by a delivery. -/
theorem Run.next (h : Run C F) (v u : Uuid) (env : Env) (hc : ∀ frames, C F u (.inbox frames)) :
    Run C (F.next v u env) := by
  by_cases hmsg : F.underWay v u = []
  · unfold Fifo.next
    rwa [hmsg]
  · obtain ⟨msg, hstep⟩ := step_next hmsg env
    exact h.step u env _ (hc _) hstep

/-- A call concerns the node it is made at. -/
theorem call_net_of_ne (h : w ≠ u) : (F.call u env input).net w = F.net w := Function.update_of_ne h _ _

/-- A delivery concerns the node it comes to. -/
theorem next_net_of_ne (h : w ≠ u) : (F.next v u env).net w = F.net w := by
  unfold next
  split
  · rfl
  · exact Function.update_of_ne h _ _

/-- One node has joined two groups, and another one has found it. -/
def sampleMet : Fifo :=
  (⟨fun u => Node.new u (Node.sampleEndpoint 'n'), fun _ _ => 0⟩ : Fifo)
    |>.call (Node.sampleUuid 0) (Node.sampleEnv 0) (.api (.join Node.sampleGroup))
    |>.call (Node.sampleUuid 0) (Node.sampleEnv 0) (.api (.join (CStr.ofChars ['h'])))
    |>.call (Node.sampleUuid 1) (Node.sampleEnv 0) (.api (.setEndpoint (some (Node.sampleEndpoint 'p'))))
    |>.call (Node.sampleUuid 1) (Node.sampleEnv 0)
      (.api (.requirePeer (Node.sampleUuid 0) (Node.sampleEndpoint 'n') none))
    |>.next (Node.sampleUuid 1) (Node.sampleUuid 0) (Node.sampleEnv 0)
    |>.next (Node.sampleUuid 0) (Node.sampleUuid 1) (Node.sampleEnv 0)

theorem run_sampleMet : Run Orderly sampleMet := by
  unfold sampleMet
  refine .next (.next (.call (.call (.call (.call (.start _) _ _ _ ?_ trivial) _ _ _ ?_ trivial) _ _ _ ?_
    trivial) _ _ _ ?_ trivial) _ _ _ fun _ => trivial) _ _ _ fun _ => trivial
  all_goals exact nofun

/-- The other one sends SHOUT to one of the groups. -/
def sampleShout : Fifo :=
  sampleMet.call (Node.sampleUuid 1) (Node.sampleEnv 0) (.api (.shout Node.sampleGroup []))

theorem run_sampleShout : Run Orderly sampleShout := by
  have hmembers : ((sampleMet.net (Node.sampleUuid 1)).members Node.sampleGroup).keys =
      [(Node.sampleUuid 0).str] := by decide +kernel
  have hown : Node.sampleGroup.truncate Msg.fieldSize ∈ (sampleMet.net (Node.sampleUuid 0)).ownGroups := by
    decide +kernel
  have horderly : sampleMet.Orderly (Node.sampleUuid 1) (.api (.shout Node.sampleGroup [])) := by
    intro w hw
    have hw' : w.str ∈ ((sampleMet.net (Node.sampleUuid 1)).members Node.sampleGroup).keys :=
      AList.mem_keys.mp hw
    rw [hmembers] at hw'
    obtain rfl := Uuid.str_injective (List.mem_singleton.mp hw')
    exact hown
  exact run_sampleMet.call _ _ _ nofun horderly

/-- The first one leaves the other group while the SHOUT is under way. -/
def sampleLeft : Fifo :=
  sampleShout.call (Node.sampleUuid 0) (Node.sampleEnv 0) (.api (.leave (CStr.ofChars ['h'])))

theorem run_sampleLeft : Run Orderly sampleLeft := by
  refine run_sampleShout.call _ _ _ nofun fun v msg hmsg hid => ?_
  have hshouts : ∀ v ∈ [Node.sampleUuid 0, Node.sampleUuid 1],
      ∀ msg ∈ sampleShout.underWay v (Node.sampleUuid 0), msg.group ≠ CStr.ofChars ['h'] := by
    decide +kernel
  by_cases hv : v ∈ [Node.sampleUuid 0, Node.sampleUuid 1]
  · exact hshouts v hv msg hmsg
  · -- Nobody else has sent anything.
    obtain ⟨hne₀, hne₁⟩ : v ≠ Node.sampleUuid 0 ∧ v ≠ Node.sampleUuid 1 := by simpa using hv
    have hnew : sampleShout.net v = Node.new v (Node.sampleEndpoint 'n') := by
      unfold sampleShout sampleMet
      simp only [call_net_of_ne hne₀, call_net_of_ne hne₁, next_net_of_ne hne₀, next_net_of_ne hne₁]
    rw [underWay, hnew] at hmsg
    simp [Node.mailTo, Node.new] at hmsg

/-- The SHOUT arrives, and the node tells of it: it is still in that group. -/
theorem shoutsHome_sampleLeft :
    ((sampleLeft.next (Node.sampleUuid 1) (Node.sampleUuid 0) (Node.sampleEnv 0)).net
      (Node.sampleUuid 0)).outbox.any (fun e => e matches .shout ..) = true ∧
    ShoutsHome (sampleLeft.net (Node.sampleUuid 0))
      ((sampleLeft.next (Node.sampleUuid 1) (Node.sampleUuid 0) (Node.sampleEnv 0)).net (Node.sampleUuid 0)) := by
  have hmsg : sampleLeft.underWay (Node.sampleUuid 1) (Node.sampleUuid 0) ≠ [] := by decide +kernel
  obtain ⟨msg, hstep⟩ := step_next hmsg (Node.sampleEnv 0)
  exact ⟨by decide +kernel, shoutsHome_of_run run_sampleLeft hstep⟩

/-- The node leaves the group itself before the SHOUT arrives. -/
theorem not_shoutsHome_of_leave : ¬∀ (F F' : Fifo) (u : Uuid) (env : Env) (input : Input),
    Run (fun _ _ _ => True) F → F.Step u env input F' → ShoutsHome (F.net u) (F'.net u) := by
  intro h
  set left : Fifo :=
    sampleShout.call (Node.sampleUuid 0) (Node.sampleEnv 0) (.api (.leave Node.sampleGroup)) with hleft
  have hrun : Run (fun _ _ _ => True) left :=
    .call (run_sampleShout.mono fun _ _ _ _ => trivial) _ _ _ nofun trivial
  have hmsg : left.underWay (Node.sampleUuid 1) (Node.sampleUuid 0) ≠ [] := by decide +kernel
  obtain ⟨msg, hstep⟩ := step_next hmsg (Node.sampleEnv 0)
  obtain ⟨es, hes, hhome⟩ := h _ _ _ _ _ hrun hstep
  have habroad : ((left.next (Node.sampleUuid 1) (Node.sampleUuid 0) (Node.sampleEnv 0)).net
      (Node.sampleUuid 0)).outbox.drop (left.net (Node.sampleUuid 0)).outbox.length |>.any fun
        | .shout _ _ group _ => decide (group ∉ (left.net (Node.sampleUuid 0)).ownGroups)
        | _ => false := by
    decide +kernel
  rw [hes, List.drop_left] at habroad
  obtain ⟨e, he, habroad⟩ := List.any_eq_true.mp habroad
  cases e with
  | shout X name group content => exact of_decide_eq_true habroad (hhome X name group content he).1
  | _ => cases habroad

end Fifo

end Zyre
