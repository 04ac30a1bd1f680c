import Mathlib.Logic.Function.Basic
import Zyre.Msg.RoundTrip
import Zyre.Node.Handling

/-!
# Any number of nodes

A network is one node for each UUID. In a step some node handles an input: a message that a node of the
network has sent to it, a call of its application, or anything at all from outside (a beacon, gossip, the
timer). A message can be handled at any time after it was sent, any number of times, or never, so that every
delay, loss and reordering is a run, and a node that has stopped is one that takes no more steps.

The run keeps the history of its steps, so that it can be said what has happened.
-/

namespace Zyre

/-- The nodes of a network, by UUID. -/
abbrev Net := Uuid → Node

namespace Net

variable {net net' : Net} {u v : Uuid} {msg : Msg} {input : Input} {trace : List (Uuid × Input)}

/-- `v` has sent the message to `u`. -/
def Sent (net : Net) (v u : Uuid) (msg : Msg) : Prop :=
  ∃ r, (r, msg) ∈ (net v).mail ∧ r.identity = u.str

/-- What can be an input of `u`: its mailbox holds what was sent to it. -/
inductive Offers (net : Net) (u : Uuid) : Input → Prop
  | deliver (v : Uuid) (msg : Msg) (h : net.Sent v u msg) :
      Offers net u (.inbox ((1 :: v.data) :: msg.frames))
  | api (command : Command) : Offers net u (.api command)
  | beacon (ipaddress : CStr) (frame : Frame) (publicKey : CStr) :
      Offers net u (.beacon ipaddress frame publicKey)
  | gossip (uuid : Uuid) (service : CStr) : Offers net u (.gossip uuid service)
  | reap (visited : List CStr) : Offers net u (.reap visited)

/-- A run of the network with inputs that satisfy `C`, and its history. -/
inductive Run (C : Input → Prop) : List (Uuid × Input) → Net → Prop
  | start (endpoint : Uuid → CStr) : Run C [] fun u => Node.new u (endpoint u)
  | step {trace : List (Uuid × Input)} {net : Net} (u : Uuid) (env : Env) (input : Input) (n' : Node)
      (hrun : Run C trace net)
      (hoffers : net.Offers u input) (hinput : C input)
      (hstep : Node.Leaves (Node.step env input) (net u) n') :
      Run C (trace ++ [(u, input)]) (Function.update net u n')

/-- The message of an input, and who has sent it. -/
theorem Offers.sent {frames : List Frame} (h : net.Offers u (.inbox frames)) :
    ∃ v msg, net.Sent v u msg ∧ frames = (1 :: v.data) :: msg.frames := by
  cases h with
  | deliver v msg h => exact ⟨v, msg, h, rfl⟩

/-- Every node keeps its UUID. -/
theorem Run.uuid {C : Input → Prop} (h : Run C trace net) (u : Uuid) : (net u).uuid = u := by
  induction h with
  | start endpoint => rfl
  | step v env input n' hrun hoffers hinput hstep ih =>
    rcases eq_or_ne u v with rfl | hne
    · rw [Function.update_self]
      exact (Node.Deeds.uuid hstep.deeds).trans ih
    · rw [Function.update_of_ne hne]
      exact ih

/-- The network after one more step. -/
def after (net : Net) (u : Uuid) (env : Env) (input : Input) : Net :=
  Function.update net u (Node.final (Node.step env input (net u)))

theorem Run.after {C : Input → Prop} (h : Run C trace net) (env : Env) (hoffers : net.Offers u input)
    (hinput : C input) : Run C (trace ++ [(u, input)]) (net.after u env input) :=
  .step u env input _ h hoffers hinput (Node.leaves_final _ _)

/-- The first message a node has sent. -/
def firstMail (net : Net) (v : Uuid) : PeerRef × Msg := (net v).mail.headD (⟨∅, 0⟩, Msg.new .unset)

theorem Offers.first (hsome : (net v).mail.isEmpty = false) (hto : (net.firstMail v).1.identity = u.str) :
    net.Offers u (.inbox ((1 :: v.data) :: (net.firstMail v).2.frames)) := by
  refine .deliver v _ ⟨(net.firstMail v).1, ?_, hto⟩
  unfold firstMail
  cases hmail : (net v).mail with
  | nil => simp [hmail] at hsome
  | cons m ms => exact List.mem_cons_self

end Net

end Zyre
