import Mathlib.Computability.Language
import Zyre.ForMathlib.EStateM

/-!
# Programs that read a word

A decoder is a stateful program that consumes the beginning of its input and may find it too short.
`Reads input short x L` says that `x` reads one word of the language `L` from `input`, whatever comes
behind it, and stops with the error `short` exactly when no word of `L` is there. Programs in
sequence read the product of their languages, and a program that first reads a size reads the
language `sized k M`, in which the first `k` letters say what follows.

As a consequence the words of such a language are told from the input alone, which is what makes a
truncated input recognisable (`Reads.ok_iff`).
-/

namespace Language

variable {τ : Type} {k : ℕ}

/-- The words of length `k`. -/
def letters (k : ℕ) : Language τ := {w | w.length = k}

/-- Words that begin with `k` letters, which say what follows. -/
def sized (k : ℕ) (M : List τ → Language τ) : Language τ :=
  {w | ∃ u v, u.length = k ∧ v ∈ M u ∧ u ++ v = w}

end Language

namespace EStateM

open Language

variable {ε σ τ α β : Type} {input : σ → List τ} {short : ε}

/-- `x` reads a word of `L` and stops with `short` where there is none. -/
structure Reads (input : σ → List τ) (short : ε) (x : EStateM ε σ α) (L : Language τ) : Prop where
  ok : ∀ {s a s'}, x s = .ok a s' → ∃ w ∈ L, w ++ input s' = input s
  of_append : ∀ {s w t}, w ∈ L → w ++ t = input s → ∃ a s', x s = .ok a s' ∧ input s' = t
  error : ∀ {s e s'}, x s = .error e s' → e = short

/-- `x` reads `k` letters and returns their value. -/
structure Takes (input : σ → List τ) (short : ε) (x : EStateM ε σ α) (k : ℕ)
    (value : List τ → α) : Prop where
  ok : ∀ {s a s'}, x s = .ok a s' → ∃ w, w.length = k ∧ w ++ input s' = input s ∧ a = value w
  of_append : ∀ {s w t}, w.length = k → w ++ t = input s →
    ∃ s', x s = .ok (value w) s' ∧ input s' = t
  error : ∀ {s e s'}, x s = .error e s' → e = short

theorem bind_ok {x : EStateM ε σ β} {f : β → EStateM ε σ α} {s s' : σ} {a : α}
    (h : (x >>= f) s = .ok a s') : ∃ b s₁, x s = .ok b s₁ ∧ f b s₁ = .ok a s' := by
  have h : EStateM.bind x f s = .ok a s' := h
  unfold EStateM.bind at h
  cases hx : x s with
  | ok b s₁ => rw [hx] at h; exact ⟨b, s₁, rfl, h⟩
  | error e s₁ => rw [hx] at h; cases h

theorem bind_error {x : EStateM ε σ β} {f : β → EStateM ε σ α} {s s' : σ} {e : ε}
    (h : (x >>= f) s = .error e s') :
    x s = .error e s' ∨ ∃ b s₁, x s = .ok b s₁ ∧ f b s₁ = .error e s' := by
  have h : EStateM.bind x f s = .error e s' := h
  unfold EStateM.bind at h
  cases hx : x s with
  | ok b s₁ => rw [hx] at h; exact Or.inr ⟨b, s₁, rfl, h⟩
  | error e' s₁ => rw [hx] at h; cases h; exact Or.inl rfl

theorem Takes.reads {x : EStateM ε σ α} {k : ℕ} {value : List τ → α}
    (h : Takes input short x k value) : Reads input short x (letters k) where
  ok hx := by
    obtain ⟨w, hw, happend, -⟩ := h.ok hx
    exact ⟨w, hw, happend⟩
  of_append hw happend := by
    obtain ⟨s', hs', ht⟩ := h.of_append hw happend
    exact ⟨_, s', hs', ht⟩
  error := h.error

theorem Takes.map {x : EStateM ε σ α} {k : ℕ} {value : List τ → α}
    (h : Takes input short x k value) (f : α → β) :
    Takes input short (do pure (f (← x))) k (f ∘ value) where
  ok hx := by
    obtain ⟨b, s₁, hb, hpure⟩ := bind_ok hx
    cases hpure
    obtain ⟨w, hw, happend, rfl⟩ := h.ok hb
    exact ⟨w, hw, happend, rfl⟩
  of_append hw happend := by
    obtain ⟨s', hs', ht⟩ := h.of_append hw happend
    exact ⟨s', bind_of_ok hs', ht⟩
  error hx := by
    rcases bind_error hx with hx | ⟨b, s₁, -, hpure⟩
    · exact h.error hx
    · cases hpure

/-- The size first, then what it says. -/
theorem Takes.bind {x : EStateM ε σ β} {k : ℕ} {value : List τ → β} {f : β → EStateM ε σ α}
    {M : List τ → Language τ} (hx : Takes input short x k value)
    (hf : ∀ u, Reads input short (f (value u)) (M u)) :
    Reads input short (x >>= f) (sized k M) where
  ok h := by
    obtain ⟨b, s₁, hb, ha⟩ := bind_ok h
    obtain ⟨u, hu, happend, rfl⟩ := hx.ok hb
    obtain ⟨v, hv, happend'⟩ := (hf u).ok ha
    exact ⟨u ++ v, ⟨u, v, hu, hv, rfl⟩, by rw [List.append_assoc, happend', happend]⟩
  of_append := by
    rintro s w t ⟨u, v, hu, hv, rfl⟩ happend
    rw [List.append_assoc] at happend
    obtain ⟨s₁, hs₁, ht₁⟩ := hx.of_append hu happend
    obtain ⟨a, s', hs', ht⟩ := (hf u).of_append hv ht₁.symm
    exact ⟨a, s', (bind_of_ok hs₁).trans hs', ht⟩
  error h := by
    rcases bind_error h with h | ⟨b, s₁, hb, h⟩
    · exact hx.error h
    · obtain ⟨u, -, -, rfl⟩ := hx.ok hb
      exact (hf u).error h

namespace Reads

variable {x : EStateM ε σ β} {f : β → EStateM ε σ α} {L M : Language τ}

theorem pure (a : α) : Reads input short (Pure.pure a : EStateM ε σ α) 1 where
  ok h := by cases h; exact ⟨[], rfl, rfl⟩
  of_append := by
    rintro s w t rfl happend
    exact ⟨a, s, rfl, happend.symm⟩
  error h := by cases h

/-- One program after the other. -/
theorem bind (hx : Reads input short x L) (hf : ∀ b, Reads input short (f b) M) :
    Reads input short (x >>= f) (L * M) where
  ok h := by
    obtain ⟨b, s₁, hb, ha⟩ := bind_ok h
    obtain ⟨u, hu, happend⟩ := hx.ok hb
    obtain ⟨v, hv, happend'⟩ := (hf b).ok ha
    exact ⟨u ++ v, append_mem_mul hu hv, by rw [List.append_assoc, happend', happend]⟩
  of_append := by
    intro s w t hw happend
    obtain ⟨u, hu, v, hv, rfl⟩ := mem_mul.mp hw
    rw [List.append_assoc] at happend
    obtain ⟨b, s₁, hs₁, ht₁⟩ := hx.of_append hu happend
    obtain ⟨a, s', hs', ht⟩ := (hf b).of_append hv ht₁.symm
    exact ⟨a, s', (bind_of_ok hs₁).trans hs', ht⟩
  error h := by
    rcases bind_error h with h | ⟨b, s₁, -, h⟩
    · exact hx.error h
    · exact (hf b).error h

/-- A change of the state that leaves the input alone. -/
theorem modify {g : σ → σ} (hg : ∀ s, input (g s) = input s) :
    Reads input short (modify g : EStateM ε σ PUnit) 1 where
  ok h := by cases h; exact ⟨[], rfl, hg _⟩
  of_append := by
    rintro s w t rfl happend
    exact ⟨⟨⟩, g s, rfl, (hg s).trans happend.symm⟩
  error h := by cases h

/-- The program succeeds exactly where a word of its language is. -/
theorem ok_iff (hx : Reads input short x L) {s : σ} :
    (∃ b s', x s = .ok b s') ↔ ∃ w ∈ L, w <+: input s := by
  constructor
  · rintro ⟨b, s', h⟩
    obtain ⟨w, hw, happend⟩ := hx.ok h
    exact ⟨w, hw, _, happend⟩
  · rintro ⟨w, hw, t, happend⟩
    obtain ⟨b, s', h, -⟩ := hx.of_append hw happend
    exact ⟨b, s', h⟩

end Reads

end EStateM
