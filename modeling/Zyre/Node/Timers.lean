import Zyre.Node.Events

/-!
# Timeouts, deadlines and the clock

The timeouts are given as `int`, kept as `uint64_t`, added to an `int64_t` clock, multiplied by 100 into
an `int`, and compared as signed values. This module says which of the quantities derived from them have
the value they would have as integers.
-/

namespace Zyre

/-- The high-water mark `zyre_peer_connect` hands to `zsock_set_sndhwm`, which takes an `int`. -/
def Peer.sndhwm (expiredTimeout : UInt64) : Int32 := (expiredTimeout * 100).toUInt32.toInt32

/-! ### Conversions -/

theorem toInt_toInt64 (x : UInt64) : x.toInt64.toInt = (x.toNat : ℤ).bmod (2 ^ 64) :=
  BitVec.toInt_eq_toNat_bmod x.toBitVec

theorem toInt_toInt32 (x : UInt32) : x.toInt32.toInt = (x.toNat : ℤ).bmod (2 ^ 32) :=
  BitVec.toInt_eq_toNat_bmod x.toBitVec

/-- A value below `2 ^ 63` keeps it as a signed one. -/
theorem toInt_toInt64_of_lt {x : UInt64} (h : x.toNat < 2 ^ 63) : x.toInt64.toInt = x.toNat := by
  rw [toInt_toInt64]
  exact Int.bmod_eq_of_le (by omega) (by omega)

section

variable {d : Int32} {now : Int64}

/-- A non-negative `int` stored as `uint64_t`. -/
theorem toNat_timeout (hd : 0 ≤ d.toInt) : (d.toInt64.toUInt64.toNat : ℤ) = d.toInt := by
  have hsigned : d.toInt64.toUInt64.toInt64.toInt = d.toInt := by simp
  have hlt := d.toInt_lt
  have hnat : d.toInt64.toUInt64.toNat < 2 ^ 64 := UInt64.toNat_lt _
  rw [toInt_toInt64, Int.bmod_def] at hsigned
  split_ifs at hsigned <;> omega

/-- The deadline is the clock plus the timeout unless the sum leaves the signed range. -/
theorem toInt_deadline (hd : 0 ≤ d.toInt) (h : now.toInt + d.toInt < 2 ^ 63) :
    (now.toUInt64 + d.toInt64.toUInt64).toInt64.toInt = now.toInt + d.toInt := by
  have hle := now.le_toInt
  rw [UInt64.toInt64_add, Int64.toInt64_toUInt64, Int64.toInt64_toUInt64, Int64.toInt_add,
    Int32.toInt_toInt64]
  exact Int.bmod_eq_of_le (by omega) (by omega)

theorem toInt_sndhwm (hd : 0 ≤ d.toInt) :
    (Peer.sndhwm d.toInt64.toUInt64).toInt = (100 * d.toInt).bmod (2 ^ 32) := by
  have hlt := d.toInt_lt
  have hnat := toNat_timeout hd
  have hmul : (d.toInt64.toUInt64 * 100).toNat = d.toInt64.toUInt64.toNat * 100 := by
    rw [UInt64.toNat_mul]
    exact Nat.mod_eq_of_lt (by simp; omega)
  rw [Peer.sndhwm, toInt_toInt32, UInt64.toNat_toUInt32, hmul]
  rw [Int.natCast_emod, Int.emod_bmod, Nat.cast_mul, hnat, mul_comm]
  rfl

end

namespace Node

variable {n n' : Node} {env env' : Env} {evasive expired : Int32} {last now : Int64}

/-- The time `zyre_node_actor` lets its poller wait, at clock `now`. -/
def pollTimeout (n : Node) (lastReapedAt now : Int64) : Int32 :=
  let timeout := (lastReapedAt + n.reapInterval.toInt64 - now).toInt32
  if timeout < 0 then 0 else timeout

/-- Nothing derived from the timeouts `evasive` and `expired` wraps, at clock `now` and with the last
reap pass at `last`. -/
structure Unwrapped (n : Node) (evasive expired : ℤ) (last now : Int64) : Prop where
  sndhwm : (Peer.sndhwm n.expiredTimeout).toInt = 100 * expired
  evasiveAt : ∀ p : Peer, (p.refresh now n.evasiveTimeout n.expiredTimeout).evasiveAt.toInt64.toInt =
    now.toInt + evasive
  expiredAt : ∀ p : Peer, (p.refresh now n.evasiveTimeout n.expiredTimeout).expiredAt.toInt64.toInt =
    now.toInt + expired
  evasiveAt_le : ∀ (p : Peer) (t : Int64),
    (p.refresh now n.evasiveTimeout n.expiredTimeout).evasiveAt.toInt64 ≤ t ↔
      now.toInt + evasive ≤ t.toInt
  expiredAt_le : ∀ (p : Peer) (t : Int64),
    (p.refresh now n.evasiveTimeout n.expiredTimeout).expiredAt.toInt64 ≤ t ↔
      now.toInt + expired ≤ t.toInt
  interval : 0 ≤ n.reapInterval.toInt64.toInt ∧
    n.reapInterval.toInt64.toInt ≤ min (min evasive expired) 1000
  poll : 0 ≤ (n.pollTimeout last now).toInt ∧ (n.pollTimeout last now).toInt ≤ 1000

/-! ### The reap interval -/

theorem toNat_reapInterval : n.reapInterval.toNat =
    min (min n.evasiveTimeout.toNat n.expiredTimeout.toNat) 1000 := by
  rw [reapInterval, UInt64.toNat_min, UInt64.toNat_min]
  rfl

theorem toInt_reapInterval : n.reapInterval.toInt64.toInt = n.reapInterval.toNat := by
  refine toInt_toInt64_of_lt ?_
  rw [toNat_reapInterval]
  omega

/-- The rest of the interval, cut to 32 bits. -/
theorem toInt_rest (n : Node) (last now : Int64) :
    (last + n.reapInterval.toInt64 - now).toInt32.toInt =
      (last.toInt + n.reapInterval.toNat - now.toInt).bmod (2 ^ 32) := by
  rw [Int64.toInt_toInt32, Int64.toInt_sub, Int64.toInt_add, Int.bmod_sub_bmod,
    Int.bmod_bmod_of_dvd (by decide), toInt_reapInterval]

/-- The poller never waits for a negative time, and waits too long only where the rest of the
interval, cut to 32 bits, is too large. -/
theorem pollTimeout_le_iff : (0 ≤ (n.pollTimeout last now).toInt ∧ (n.pollTimeout last now).toInt ≤ 1000) ↔
    (last.toInt + n.reapInterval.toNat - now.toInt).bmod (2 ^ 32) ≤ 1000 := by
  have hvalue : (last + n.reapInterval.toInt64 - now).toInt32.toInt =
      (last.toInt + n.reapInterval.toNat - now.toInt).bmod (2 ^ 32) := toInt_rest n last now
  rw [pollTimeout]
  by_cases hneg : (last + n.reapInterval.toInt64 - now).toInt32 < 0
  · have hlt := Int32.lt_iff_toInt_lt.mp hneg
    rw [hvalue, Int32.toInt_zero] at hlt
    simp only [if_pos hneg, Int32.toInt_zero]
    omega
  · have hle := Int32.lt_iff_toInt_lt.not.mp hneg
    rw [hvalue, Int32.toInt_zero] at hle
    simp only [if_neg hneg, hvalue]
    omega

/-! ### What wraps -/

/-- The two commands that set the timeouts. -/
theorem play_setTimeouts (h : play [(env, .api (.setEvasiveTimeout evasive)),
    (env', .api (.setExpiredTimeout expired))] n = some n') :
    n'.evasiveTimeout = evasive.toInt64.toUInt64 ∧ n'.expiredTimeout = expired.toInt64.toUInt64 := by
  obtain rfl := Option.some_inj.mp h
  exact ⟨rfl, rfl⟩

/-- **Timers.** With non-negative timeouts and the clock below `2 ^ 62`, two quantities can wrap: the
high-water mark, an `int`, from a hundred times the expiry timeout, and the time left to the next pass, an
`int` as well, from the time the pass is late. The deadlines of the peers and the comparisons with the clock
cannot. -/
theorem unwrapped_iff (hset : play [(env, .api (.setEvasiveTimeout evasive)),
      (env', .api (.setExpiredTimeout expired))] n = some n')
    (hevasive : 0 ≤ evasive.toInt) (hexpired : 0 ≤ expired.toInt) (hnow : now.toInt < 2 ^ 62) :
    n'.Unwrapped evasive.toInt expired.toInt last now ↔
      100 * expired.toInt < 2 ^ 31 ∧
      ((now.toInt - last.toInt - min (min evasive.toInt expired.toInt) 1000) % 2 ^ 32 ≤ 2 ^ 31 ∨
        2 ^ 32 - 1000 ≤
          (now.toInt - last.toInt - min (min evasive.toInt expired.toInt) 1000) % 2 ^ 32) := by
  obtain ⟨hevasive', hexpired'⟩ := play_setTimeouts hset
  have hnatEvasive := toNat_timeout hevasive
  have hnatExpired := toNat_timeout hexpired
  have hltEvasive := evasive.toInt_lt
  have hltExpired := expired.toInt_lt
  have hinterval : (n'.reapInterval.toNat : ℤ) = min (min evasive.toInt expired.toInt) 1000 := by
    rw [toNat_reapInterval, hevasive', hexpired']
    omega
  have hhwm : (Peer.sndhwm n'.expiredTimeout).toInt = 100 * expired.toInt ↔
      100 * expired.toInt < 2 ^ 31 := by
    rw [hexpired', toInt_sndhwm hexpired, Int.bmod_def]
    split_ifs <;> omega
  have hpoll : (0 ≤ (n'.pollTimeout last now).toInt ∧ (n'.pollTimeout last now).toInt ≤ 1000) ↔
      (last.toInt + n'.reapInterval.toNat - now.toInt).bmod (2 ^ 32) ≤ 1000 := pollTimeout_le_iff
  rw [hinterval] at hpoll
  have hpoll' : (0 ≤ (n'.pollTimeout last now).toInt ∧ (n'.pollTimeout last now).toInt ≤ 1000) ↔
      ((now.toInt - last.toInt - min (min evasive.toInt expired.toInt) 1000) % 2 ^ 32 ≤ 2 ^ 31 ∨
        2 ^ 32 - 1000 ≤
          (now.toInt - last.toInt - min (min evasive.toInt expired.toInt) 1000) % 2 ^ 32) := by
    rw [hpoll, Int.bmod_def]
    split_ifs <;> omega
  constructor
  · intro h
    exact ⟨hhwm.mp h.sndhwm, hpoll'.mp h.poll⟩
  · rintro ⟨hsndhwm, htimeout⟩
    have hevasiveAt : ∀ p : Peer, (p.refresh now n'.evasiveTimeout n'.expiredTimeout).evasiveAt.toInt64.toInt =
        now.toInt + evasive.toInt := by
      intro p
      rw [Peer.refresh, hevasive']
      exact toInt_deadline hevasive (by omega)
    have hexpiredAt : ∀ p : Peer, (p.refresh now n'.evasiveTimeout n'.expiredTimeout).expiredAt.toInt64.toInt =
        now.toInt + expired.toInt := by
      intro p
      rw [Peer.refresh, hexpired']
      exact toInt_deadline hexpired (by omega)
    exact
      { sndhwm := hhwm.mpr hsndhwm
        evasiveAt := hevasiveAt
        expiredAt := hexpiredAt
        evasiveAt_le := fun p t => by rw [Int64.le_iff_toInt_le, hevasiveAt]
        expiredAt_le := fun p t => by rw [Int64.le_iff_toInt_le, hexpiredAt]
        interval := by rw [toInt_reapInterval, hinterval]; omega
        poll := hpoll'.mpr htimeout }

/-- The node once the application has set the expiry timeout. -/
def timedNode (expired : Int32) : Node :=
  { sampleNode with evasiveTimeout := 5000, expiredTimeout := expired.toInt64.toUInt64 }

/-- A node with the default timeouts, waiting for its first pass. -/
theorem unwrapped_default :
    (timedNode 30000).Unwrapped (5000 : Int32).toInt (30000 : Int32).toInt 0 0 :=
  have hset : play [(sampleEnv 0, .api (.setEvasiveTimeout 5000)),
      (sampleEnv 0, .api (.setExpiredTimeout 30000))] sampleNode = some (timedNode 30000) := rfl
  (unwrapped_iff hset (by decide) (by decide) (by decide)).mpr ⟨by decide, Or.inr (by decide)⟩

/-- An expiry timeout of 30000 seconds makes the high-water mark negative. -/
theorem not_unwrapped_of_long : ¬∀ (n n' : Node) (env env' : Env) (evasive expired : Int32)
    (last now : Int64), Reachable n → play [(env, .api (.setEvasiveTimeout evasive)),
      (env', .api (.setExpiredTimeout expired))] n = some n' → 0 ≤ evasive.toInt → 0 ≤ expired.toInt →
    last ≤ now → now.toInt < 2 ^ 62 → n'.Unwrapped evasive.toInt expired.toInt last now := by
  intro h
  have hunwrapped := h sampleNode (timedNode 30000000) (sampleEnv 0) (sampleEnv 0) 5000 30000000 0 0
    (.new _ _) rfl (by decide) (by decide) (by decide) (by decide)
  exact absurd hunwrapped.sndhwm (by decide)

end Node

end Zyre
