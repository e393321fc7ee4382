import Mathlib.Tactic.Common

/-!
# Down counters

A counter that goes down by one at each event and, at zero, is loaded again. `after` and `crossings` are the
value and the number of reloads after `k` events in closed form; `after_succ` and `crossings_succ` are the
recursion they solve.
-/

namespace DownCounter

/-- One event. -/
def next (reload value : Nat) : Nat := if value = 0 then reload else value - 1

/-- The value after `k` events from `value`. -/
def after (reload value k : Nat) : Nat :=
  if k ≤ value then value - k else reload - (k - value - 1) % (reload + 1)

/-- The reloads in `k` events from `value`. -/
def crossings (reload value k : Nat) : Nat :=
  if k ≤ value then 0 else 1 + (k - value - 1) / (reload + 1)

variable {R v k : Nat}

@[simp] theorem next_zero (R : Nat) : next R 0 = R := rfl

theorem next_of_ne (h : v ≠ 0) : next R v = v - 1 := if_neg h

@[simp] theorem after_zero (R v : Nat) : after R v 0 = v := if_pos (Nat.zero_le v)

@[simp] theorem crossings_zero (R v : Nat) : crossings R v 0 = 0 := if_pos (Nat.zero_le v)

theorem after_of_le (h : k ≤ v) : after R v k = v - k := if_pos h

theorem after_of_lt (h : v < k) : after R v k = R - (k - v - 1) % (R + 1) := if_neg (Nat.not_le.2 h)

theorem crossings_of_le (h : k ≤ v) : crossings R v k = 0 := if_pos h

theorem crossings_of_lt (h : v < k) : crossings R v k = 1 + (k - v - 1) / (R + 1) := if_neg (Nat.not_le.2 h)

theorem mod_succ_of_lt {m n : Nat} (h : m % (n + 1) < n) : (m + 1) % (n + 1) = m % (n + 1) + 1 := by
  have hn : 1 % (n + 1) = 1 := Nat.mod_eq_of_lt (by omega)
  rw [Nat.add_mod, hn, Nat.mod_eq_of_lt (by omega)]

theorem mod_succ_of_eq {m n : Nat} (h : m % (n + 1) = n) : (m + 1) % (n + 1) = 0 := by
  rw [Nat.add_mod, h]
  rcases Nat.eq_zero_or_pos n with rfl | hn
  · exact Nat.mod_one _
  · rw [Nat.mod_eq_of_lt (Nat.succ_lt_succ hn), Nat.mod_self]

theorem div_succ_of_lt {m n : Nat} (h : m % (n + 1) < n) : (m + 1) / (n + 1) = m / (n + 1) := by
  rw [Nat.succ_div, if_neg, Nat.add_zero]
  rw [Nat.dvd_iff_mod_eq_zero, mod_succ_of_lt h]
  exact Nat.succ_ne_zero _

theorem div_succ_of_eq {m n : Nat} (h : m % (n + 1) = n) : (m + 1) / (n + 1) = m / (n + 1) + 1 := by
  rw [Nat.succ_div, if_pos (Nat.dvd_of_mod_eq_zero (mod_succ_of_eq h))]

/-- Past the first reload the counter is at zero iff the period is over. -/
theorem after_eq_zero_iff (h : v < k) : after R v k = 0 ↔ (k - v - 1) % (R + 1) = R := by
  have hlt : (k - v - 1) % (R + 1) < R + 1 := Nat.mod_lt _ (Nat.succ_pos R)
  rw [after_of_lt h]
  omega

theorem after_succ (R v k : Nat) : after R v (k + 1) = next R (after R v k) := by
  rcases Nat.lt_trichotomy k v with h | rfl | h
  · rw [after_of_le (Nat.succ_le_of_lt h), after_of_le (Nat.le_of_lt h), next_of_ne (by omega)]
    omega
  · rw [after_of_le (Nat.le_refl k), after_of_lt (Nat.lt_succ_self k), Nat.sub_self, next_zero]
    simp
  · have hlt : (k - v - 1) % (R + 1) < R + 1 := Nat.mod_lt _ (Nat.succ_pos R)
    have hk : k + 1 - v - 1 = k - v - 1 + 1 := by omega
    rw [after_of_lt (Nat.lt_succ_of_lt h), hk]
    by_cases he : (k - v - 1) % (R + 1) = R
    · rw [(after_eq_zero_iff h).2 he, mod_succ_of_eq he]
      rfl
    · rw [next_of_ne (fun h0 => he ((after_eq_zero_iff h).1 h0)), mod_succ_of_lt (by omega), after_of_lt h]
      omega

theorem crossings_succ (R v k : Nat) :
    crossings R v (k + 1) = crossings R v k + if after R v k = 0 then 1 else 0 := by
  rcases Nat.lt_trichotomy k v with h | rfl | h
  · rw [crossings_of_le (Nat.succ_le_of_lt h), crossings_of_le (Nat.le_of_lt h), after_of_le (Nat.le_of_lt h),
      if_neg (by omega)]
  · rw [crossings_of_le (Nat.le_refl k), crossings_of_lt (Nat.lt_succ_self k), after_of_le (Nat.le_refl k),
      Nat.sub_self, if_pos rfl]
    simp
  · have hlt : (k - v - 1) % (R + 1) < R + 1 := Nat.mod_lt _ (Nat.succ_pos R)
    have hk : k + 1 - v - 1 = k - v - 1 + 1 := by omega
    rw [crossings_of_lt (Nat.lt_succ_of_lt h), hk, crossings_of_lt h, Nat.add_assoc]
    by_cases he : (k - v - 1) % (R + 1) = R
    · rw [if_pos ((after_eq_zero_iff h).2 he), div_succ_of_eq he]
    · rw [if_neg (fun h0 => he ((after_eq_zero_iff h).1 h0)), div_succ_of_lt (by omega)]
      rfl

/-- A 32-bit register above zero counts down like a number. -/
theorem toNat_sub_one {c : UInt32} (h : c ≠ 0) : (c - 1).toNat = c.toNat - 1 := by
  have hpos : (1 : UInt32).toNat ≤ c.toNat := Nat.one_le_iff_ne_zero.2 fun h0 => h (UInt32.toNat_inj.1 h0)
  exact UInt32.toNat_sub_of_le _ _ (UInt32.le_iff_toNat_le.2 hpos)

/-! ### From the reload value -/

theorem after_self (L k : Nat) : after L L k = L - k % (L + 1) := by
  rcases Nat.lt_or_ge L k with h | h
  · have hk : k = k - L - 1 + (L + 1) := by omega
    rw [after_of_lt h]
    conv_rhs => rw [hk, Nat.add_mod_right]
  · rw [after_of_le h, Nat.mod_eq_of_lt (Nat.lt_succ_of_le h)]

theorem crossings_self (L k : Nat) : crossings L L k = k / (L + 1) := by
  rcases Nat.lt_or_ge L k with h | h
  · have hk : k = k - L - 1 + (L + 1) := by omega
    rw [crossings_of_lt h, Nat.add_comm]
    conv_rhs => rw [hk, Nat.add_div_right _ (Nat.succ_pos L)]
  · rw [crossings_of_le h, Nat.div_eq_of_lt (Nat.lt_succ_of_le h)]

theorem le_crossings_self {L k m : Nat} : m ≤ crossings L L k ↔ m * (L + 1) ≤ k := by
  rw [crossings_self, Nat.le_div_iff_mul_le (Nat.succ_pos L)]

end DownCounter
