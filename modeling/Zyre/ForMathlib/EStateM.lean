import Mathlib.Order.Defs.Unbundled
import Mathlib.Tactic.Common

/-!
# A program logic for stateful programs that may abort

`EStateM ε σ` is the monad of programs that read and write a state `σ` and may stop with an
error `ε`; the state at the moment of the error is kept, so that what a program did before it
stopped can still be spoken about. `x.wp Q E s` says that `x`, started in `s`, either returns a
value and a state that satisfy `Q` or stops with an error and a state that satisfy `E`.

The rules follow the shape of programs: one equation for each monad operation (so that `simp`
executes a program symbolically), consequence (`wp_mono`), conjunction (`wp_and`), and the
invariant rules for loops over a list (`wp_forM`, `wp_forM_done`).

`x.Keeps R B s` is the special case of a program that moves the state along a preorder `R`, and
stops only where `B` names the cause. Such programs compose without a word about the states in
between (`Keeps.bind`, `Keeps.forM`). `x.Leads R s` says nothing of the cause.
-/

namespace EStateM

variable {ε σ α β : Type}

/-- Every way `x` can end when started in `s`: a normal end satisfies `Q`, an error `E`. -/
def wp (x : EStateM ε σ α) (Q : α → σ → Prop) (E : ε → σ → Prop) (s : σ) : Prop :=
  match x s with
  | .ok a s' => Q a s'
  | .error e s' => E e s'

variable {Q Q' : α → σ → Prop} {E E' : ε → σ → Prop} {s : σ}

/-! ### One equation for each operation -/

/-- A program that only returns. -/
@[simp]
theorem wp_pure (a : α) : (pure a : EStateM ε σ α).wp Q E s ↔ Q a s :=
  Iff.rfl

/-- Two programs, one behind the other. -/
@[simp]
theorem wp_bind (x : EStateM ε σ β) (f : β → EStateM ε σ α) :
    (x >>= f).wp Q E s ↔ x.wp (fun b s' => (f b).wp Q E s') E s := by
  show (EStateM.bind x f).wp Q E s ↔ _
  unfold wp EStateM.bind
  cases x s <;> rfl

/-- A program whose result is mapped. -/
@[simp]
theorem wp_map (f : β → α) (x : EStateM ε σ β) :
    (f <$> x).wp Q E s ↔ x.wp (fun b s' => Q (f b) s') E s := by
  show (EStateM.map f x).wp Q E s ↔ _
  unfold wp EStateM.map
  cases x s <;> rfl

/-- Reading the state. -/
@[simp]
theorem wp_get {Q : σ → σ → Prop} : (get : EStateM ε σ σ).wp Q E s ↔ Q s s :=
  Iff.rfl

/-- Setting the state. -/
@[simp]
theorem wp_set {Q : PUnit → σ → Prop} (t : σ) :
    (set t : EStateM ε σ PUnit).wp Q E s ↔ Q ⟨⟩ t :=
  Iff.rfl

/-- Changing the state. -/
@[simp]
theorem wp_modify {Q : PUnit → σ → Prop} (f : σ → σ) :
    (modify f : EStateM ε σ PUnit).wp Q E s ↔ Q ⟨⟩ (f s) :=
  Iff.rfl

/-- A program that stops. -/
@[simp]
theorem wp_throw (e : ε) : (throw e : EStateM ε σ α).wp Q E s ↔ E e s :=
  Iff.rfl

/-- A branch is taken under its condition. -/
@[simp]
theorem wp_ite (c : Prop) [Decidable c] (x y : EStateM ε σ α) :
    (if c then x else y).wp Q E s ↔ (c → x.wp Q E s) ∧ (¬c → y.wp Q E s) := by
  split_ifs with h <;> simp [h]

/-! ### Consequence and conjunction -/

/-- The rule of consequence: less may be asked of the end. -/
theorem wp_mono {x : EStateM ε σ α} (h : x.wp Q E s) (hQ : ∀ a s', Q a s' → Q' a s')
    (hE : ∀ e s', E e s' → E' e s') : x.wp Q' E' s := by
  unfold wp at h ⊢
  cases hx : x s with
  | ok a s' => rw [hx] at h; exact hQ a s' h
  | error e s' => rw [hx] at h; exact hE e s' h

/-- What holds for two reasons holds at the same end. -/
theorem wp_and {x : EStateM ε σ α} (h : x.wp Q E s) (h' : x.wp Q' E' s) :
    x.wp (fun a s' => Q a s' ∧ Q' a s') (fun e s' => E e s' ∧ E' e s') s := by
  unfold wp at h h' ⊢
  cases hx : x s with
  | ok a s' => rw [hx] at h h'; exact ⟨h, h'⟩
  | error e s' => rw [hx] at h h'; exact ⟨h, h'⟩

/-- Only what the program does from this state counts. -/
theorem wp_congr {x y : EStateM ε σ α} (h : x s = y s) : x.wp Q E s ↔ y.wp Q E s := by
  unfold wp
  rw [h]

/-- Programs that do the same do the same in front of a third one. -/
theorem bind_congr {x y : EStateM ε σ β} {f : β → EStateM ε σ α} {s t : σ} (h : x s = y t) :
    (x >>= f) s = (y >>= f) t := by
  change EStateM.bind x f s = EStateM.bind y f t
  unfold EStateM.bind
  rw [h]

/-- Behind a program that has come to its end the next one runs. -/
theorem bind_of_ok {x : EStateM ε σ β} {f : β → EStateM ε σ α} {s t : σ} {b : β}
    (h : x s = .ok b t) : (x >>= f) s = f b t := by
  change EStateM.bind x f s = _
  unfold EStateM.bind
  rw [h]

/-- Behind a program that has stopped nothing runs. -/
theorem bind_of_error {x : EStateM ε σ β} {f : β → EStateM ε σ α} {s s₁ : σ} {e : ε}
    (h : x s = .error e s₁) : (x >>= f) s = .error e s₁ := by
  change EStateM.bind x f s = _
  unfold EStateM.bind
  rw [h]

/-- The postcondition holds at the end that was reached. -/
theorem wp_of_ok {x : EStateM ε σ α} {a : α} {s' : σ} (hx : x s = .ok a s') (h : x.wp Q E s) :
    Q a s' := by
  unfold wp at h
  rwa [hx] at h

/-- The other one holds where the program has stopped. -/
theorem wp_of_error {x : EStateM ε σ α} {e : ε} {s' : σ} (hx : x s = .error e s')
    (h : x.wp Q E s) : E e s' := by
  unfold wp at h
  rwa [hx] at h

/-- A program that cannot stop returns. -/
theorem exists_of_wp {x : EStateM ε σ α} (h : x.wp Q (fun _ _ => False) s) :
    ∃ a s', x s = .ok a s' ∧ Q a s' := by
  unfold wp at h
  cases hx : x s with
  | ok a s' => rw [hx] at h; exact ⟨a, s', rfl, h⟩
  | error e s' => rw [hx] at h; exact h.elim

/-! ### Loops -/

/-- The loop rule: what every round keeps, the loop keeps. The error condition need only hold
where a round stops. -/
theorem wp_forM {Q : PUnit → σ → Prop} {l : List β} {f : β → EStateM ε σ PUnit} (I : σ → Prop)
    (h0 : I s) (hstep : ∀ b ∈ l, ∀ s', I s' → (f b).wp (fun _ => I) E s')
    (hQ : ∀ s', I s' → Q ⟨⟩ s') : (forM l f : EStateM ε σ PUnit).wp Q E s := by
  induction l generalizing s with
  | nil => exact hQ s h0
  | cons b l ih =>
    simp only [List.forM_cons, wp_bind]
    refine wp_mono (hstep b List.mem_cons_self s h0) (fun _ s' hs' => ?_) fun _ _ h => h
    exact ih hs' fun b' hb' => hstep b' (List.mem_cons_of_mem _ hb')

/-- The loop rule with an invariant that knows which rounds are done. -/
theorem wp_forM_done {Q : PUnit → σ → Prop} {l : List β} {f : β → EStateM ε σ PUnit}
    (I : List β → σ → Prop) (h0 : I [] s)
    (hstep : ∀ done b rest, done ++ b :: rest = l → ∀ s', I done s' →
      (f b).wp (fun _ => I (done ++ [b])) E s')
    (hQ : ∀ s', I l s' → Q ⟨⟩ s') : (forM l f : EStateM ε σ PUnit).wp Q E s := by
  suffices hall : ∀ done rest, done ++ rest = l → I done s →
      (forM rest f : EStateM ε σ PUnit).wp Q E s from hall [] l rfl h0
  clear h0
  intro done rest
  induction rest generalizing done s with
  | nil =>
    intro hl hI
    rw [List.append_nil] at hl
    exact hQ s (hl ▸ hI)
  | cons b rest ih =>
    intro hl hI
    simp only [List.forM_cons, wp_bind]
    refine wp_mono (hstep done b rest hl s hI) (fun _ s' hs' => ?_) fun _ _ h => h
    exact ih (done ++ [b]) (by rw [List.append_assoc]; exact hl) hs'

/-! ### Programs that move along a preorder -/

/-- However `x` ends when started in `s`, it has moved the state along `R`; where it stops with an
error, `B` holds. -/
def Keeps (R : σ → σ → Prop) (B : ε → σ → Prop) (x : EStateM ε σ α) (s : σ) : Prop :=
  x.wp (fun _ s' => R s s') (fun e s' => R s s' ∧ B e s') s

namespace Keeps

variable {R R' : σ → σ → Prop} {B : ε → σ → Prop} {x : EStateM ε σ β} {f : β → EStateM ε σ α}

theorem mono (h : x.Keeps R B s) (hR : ∀ s', R s s' → R' s s') : x.Keeps R' B s :=
  wp_mono h (fun _ s' hs' => hR s' hs') fun _ s' hs' => ⟨hR s' hs'.1, hs'.2⟩

theorem weaken {B' : ε → σ → Prop} (h : x.Keeps R B s) (hB : ∀ e s', B e s' → B' e s') :
    x.Keeps R B' s :=
  wp_mono h (fun _ _ hs' => hs') fun e s' hs' => ⟨hs'.1, hB e s' hs'.2⟩

/-- What moves on from `s'` moves on from `s` if `s` has moved to `s'`. -/
theorem after [IsTrans σ R] {s' : σ} {y : EStateM ε σ α} (hs' : R s s') (hy : y.Keeps R B s') :
    y.wp (fun _ s'' => R s s'') (fun e s'' => R s s'' ∧ B e s'') s' :=
  wp_mono hy (fun _ _ hs'' => IsTrans.trans _ _ _ hs' hs'')
    fun _ _ hs'' => ⟨IsTrans.trans _ _ _ hs' hs''.1, hs''.2⟩

/-- Sequencing, with what the first program is known to return. -/
theorem bind' [IsTrans σ R] {P : β → σ → Prop}
    (hx : x.wp (fun b s' => R s s' ∧ P b s') (fun e s' => R s s' ∧ B e s') s)
    (hf : ∀ b s', R s s' → P b s' → (f b).Keeps R B s') : (x >>= f).Keeps R B s := by
  refine wp_bind .. |>.mpr (wp_mono hx (fun b s' hb => ?_) fun _ _ h => h)
  exact after hb.1 (hf b s' hb.1 hb.2)

theorem bind [IsTrans σ R] (hx : x.Keeps R B s) (hf : ∀ b s', R s s' → (f b).Keeps R B s') :
    (x >>= f).Keeps R B s :=
  bind' (P := fun _ _ => True) (wp_mono hx (fun _ _ h => ⟨h, trivial⟩) fun _ _ h => h)
    fun b s' hs' _ => hf b s' hs'

/-- A first program that ends in the known state `s'` when it ends normally. -/
theorem bind_of_wp [IsTrans σ R] {s' : σ} (hs' : R s s')
    (hx : x.wp (fun b t => t = s' ∧ (f b).Keeps R B s') (fun e t => R s t ∧ B e t) s) :
    (x >>= f).Keeps R B s := by
  refine wp_bind .. |>.mpr (wp_mono hx ?_ fun _ _ h => h)
  rintro b t ⟨rfl, hf⟩
  exact after hs' hf

theorem pure [Std.Refl R] (a : α) : (Pure.pure a : EStateM ε σ α).Keeps R B s :=
  Std.Refl.refl s

theorem throw [Std.Refl R] (e : ε) (hB : B e s) :
    (MonadExcept.throw e : EStateM ε σ α).Keeps R B s :=
  ⟨Std.Refl.refl s, hB⟩

/-- Reading the state. -/
theorem get {g : σ → EStateM ε σ α} (h : (g s).Keeps R B s) :
    (MonadState.get >>= g).Keeps R B s :=
  h

theorem pure_bind {b : β} (h : (f b).Keeps R B s) : (Pure.pure b >>= f).Keeps R B s :=
  h

theorem ite {c : Prop} [Decidable c] {y z : EStateM ε σ α} (hy : c → y.Keeps R B s)
    (hz : ¬c → z.Keeps R B s) : (if c then y else z).Keeps R B s :=
  wp_ite .. |>.mpr ⟨hy, hz⟩

/-- A loop may use what holds at its start and is kept along `R`. -/
theorem forM [Std.Refl R] [IsTrans σ R] {l : List β} {g : β → EStateM ε σ PUnit}
    (h : ∀ b ∈ l, ∀ s', R s s' → (g b).Keeps R B s') :
    (ForM.forM l g : EStateM ε σ PUnit).Keeps R B s := by
  refine wp_forM (R s) (Std.Refl.refl s) (fun b hb s' hs' => ?_) fun _ h => h
  exact after hs' (h b hb s' hs')

end Keeps

/-! ### Programs that move along a preorder -/

/-- `x` moves the state along `R`, whatever it ends with. -/
abbrev Leads (R : σ → σ → Prop) (x : EStateM ε σ α) (s : σ) : Prop :=
  x.Keeps R (fun _ _ => True) s

namespace Leads

variable {R : σ → σ → Prop} {x : EStateM ε σ β}

theorem of_keeps {B : ε → σ → Prop} (h : x.Keeps R B s) : x.Leads R s :=
  Keeps.weaken h fun _ _ _ => trivial

theorem of_ok {b : β} {s' : σ} (h : x.Leads R s) (hx : x s = .ok b s') : R s s' := by
  unfold Leads Keeps at h
  exact (wp_of_ok hx h :)

end Leads

/-! ### Invariants -/

/-- If `I` holds when `x` is started in `s`, it holds when `x` returns. -/
def Maintains (I : σ → Prop) (x : EStateM ε σ α) (s : σ) : Prop :=
  I s → x.wp (fun _ s' => I s') (fun _ _ => True) s

namespace Maintains

variable {I : σ → Prop} {x : EStateM ε σ β} {f : β → EStateM ε σ α}

theorem bind (hx : x.Maintains I s) (hf : ∀ b s', (f b).Maintains I s') :
    (x >>= f).Maintains I s := fun hs =>
  wp_bind .. |>.mpr (wp_mono (hx hs) (fun b s' hs' => hf b s' hs') fun _ _ h => h)

theorem pure (a : α) : (Pure.pure a : EStateM ε σ α).Maintains I s := id

theorem throw (e : ε) : (MonadExcept.throw e : EStateM ε σ α).Maintains I s := fun _ => trivial

/-- Reading the state. -/
theorem get {g : σ → EStateM ε σ α} (h : (g s).Maintains I s) :
    (MonadState.get >>= g).Maintains I s :=
  h

theorem modify {f : σ → σ} (h : I s → I (f s)) :
    (modify f : EStateM ε σ PUnit).Maintains I s :=
  h

theorem ite {c : Prop} [Decidable c] {y z : EStateM ε σ α} (hy : c → y.Maintains I s)
    (hz : ¬c → z.Maintains I s) : (if c then y else z).Maintains I s := fun hs =>
  wp_ite .. |>.mpr ⟨fun h => hy h hs, fun h => hz h hs⟩

theorem forM {l : List β} {g : β → EStateM ε σ PUnit} (h : ∀ b ∈ l, ∀ s', (g b).Maintains I s') :
    (ForM.forM l g : EStateM ε σ PUnit).Maintains I s := fun hs =>
  wp_forM I hs (fun b hb s' hs' => h b hb s' hs') fun _ h => h

/-- A program that moves along a preorder that keeps the invariant. -/
theorem of_keeps {R : σ → σ → Prop} {B : ε → σ → Prop} (h : x.Keeps R B s)
    (hI : ∀ s', R s s' → I s → I s') : x.Maintains I s := fun hs =>
  wp_mono h (fun _ s' hs' => hI s' hs' hs) fun _ _ _ => trivial

end Maintains

end EStateM
