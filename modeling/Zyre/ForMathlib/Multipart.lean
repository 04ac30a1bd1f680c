import Mathlib.Data.List.Basic

/-!
# Multipart messages on a stream of frames

A multipart message travels as a run of frames, each but the last marked as having more to follow, and
the reader cuts the stream after every frame without that mark. A sender that writes the frames of a
message in several calls relies on the last call to write the frame that ends it:
`map_messages_iff` says that the reader then finds exactly the messages sent if and only if no last
call writes nothing.
-/

namespace Multipart

variable {α γ ι : Type}

/-- Frames that have more to follow. -/
def more (fs : List α) : List (α × Bool) := fs.map (·, true)

/-- The frames of one message, all but the last with more to follow. -/
def mark : List α → List (α × Bool)
  | [] => []
  | [f] => [(f, false)]
  | f :: fs => (f, true) :: mark fs

/-- The messages on a stream; what comes after the last end of a message is not one. -/
def messages : List (α × Bool) → List (List α)
  | [] => []
  | (f, false) :: s => [f] :: messages s
  | (f, true) :: s =>
    match messages s with
    | [] => []
    | m :: ms => (f :: m) :: ms

@[simp]
theorem messages_nil : messages ([] : List (α × Bool)) = [] := rfl

@[simp]
theorem messages_last (f : α) (s : List (α × Bool)) :
    messages ((f, false) :: s) = [f] :: messages s := rfl

theorem messages_more_cons {f : α} {s : List (α × Bool)} {m : List α} {ms : List (List α)}
    (h : messages s = m :: ms) : messages ((f, true) :: s) = (f :: m) :: ms := by
  rw [messages, h]

/-- A message that is not empty is the next one on the stream. -/
theorem messages_mark_append {fs : List α} (h : fs ≠ []) (s : List (α × Bool)) :
    messages (mark fs ++ s) = fs :: messages s := by
  induction fs with
  | nil => exact absurd rfl h
  | cons f fs ih =>
    cases fs with
    | nil => rfl
    | cons g fs => exact messages_more_cons (ih (by simp))

/-- Frames in front of a message belong to it. -/
theorem messages_more_append {s : List (α × Bool)} {m : List α} {ms : List (List α)}
    (h : messages s = m :: ms) (fs : List α) : messages (more fs ++ s) = (fs ++ m) :: ms := by
  induction fs with
  | nil => exact h
  | cons f fs ih => exact messages_more_cons ih

/-- There are as many messages as frames that end one. -/
theorem length_messages (s : List (α × Bool)) :
    (messages s).length = s.countP fun p => !p.2 := by
  induction s with
  | nil => rfl
  | cons p s ih =>
    obtain ⟨f, more⟩ := p
    cases more with
    | false => simp [ih]
    | true =>
      rw [messages]
      cases hs : messages s with
      | nil => simpa [hs] using ih
      | cons m ms => simpa [hs] using ih

theorem countP_more (fs : List α) : (more fs).countP (fun p => !p.2) = 0 := by
  simp [more, List.countP_map]

theorem countP_mark (fs : List α) :
    (mark fs).countP (fun p => !p.2) = if fs = [] then 0 else 1 := by
  induction fs with
  | nil => rfl
  | cons f fs ih =>
    cases fs with
    | nil => rfl
    | cons g fs => simpa [mark] using ih

variable {head body : ι → List α}

/-- Messages written in two calls, the second of which writes at least one frame. -/
theorem messages_flatMap {is : List ι} (h : ∀ i ∈ is, body i ≠ []) :
    messages (is.flatMap fun i => more (head i) ++ mark (body i)) =
      is.map fun i => head i ++ body i := by
  induction is with
  | nil => rfl
  | cons i is ih =>
    obtain ⟨hi, his⟩ := List.forall_mem_cons.mp h
    rw [List.flatMap_cons, List.append_assoc, List.map_cons, ← ih his]
    exact messages_more_append (messages_mark_append hi _) _

/-- The reader finds one message for each that was written if and only if no second call writes
nothing. -/
theorem length_messages_flatMap_iff {is : List ι} :
    (messages (is.flatMap fun i => more (head i) ++ mark (body i))).length = is.length ↔
      ∀ i ∈ is, body i ≠ [] := by
  have hcount : ∀ is : List ι, (is.flatMap fun i => more (head i) ++ mark (body i)).countP
      (fun p => !p.2) = is.countP fun i => body i ≠ [] := by
    intro is
    induction is with
    | nil => rfl
    | cons i is ih =>
      rw [List.flatMap_cons, List.countP_append, List.countP_append, countP_more, countP_mark, ih,
        List.countP_cons]
      by_cases hi : body i = [] <;> simp [hi, Nat.add_comm]
  rw [length_messages, hcount, List.countP_eq_length]
  simp

/-- The reader understands every message as it was meant if and only if no second call writes
nothing. -/
theorem map_messages_iff {f : List α → γ} {g : ι → γ} (hf : ∀ i, f (head i ++ body i) = g i)
    {is : List ι} :
    (messages (is.flatMap fun i => more (head i) ++ mark (body i))).map f = is.map g ↔
      ∀ i ∈ is, body i ≠ [] := by
  constructor
  · intro h
    have hlength := congrArg List.length h
    rw [List.length_map, List.length_map] at hlength
    exact length_messages_flatMap_iff.mp hlength
  · intro h
    rw [messages_flatMap h, List.map_map]
    exact List.map_congr_left fun i _ => hf i

end Multipart
