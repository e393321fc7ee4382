import Mathlib.Data.Int.ModEq
import Mathlib.Data.List.Nodup

/-!
# Consecutive numbers and their residues

`P` consecutive numbers have every residue modulo `P` once, wherever they start: a property of residues holds
of as many of them as of `0, ..., P - 1`.
-/

namespace Residues

/-- The window slides over a periodic property: what leaves at one end comes in at the other. -/
theorem countP_range_add {q : Nat → Bool} {P : Nat} (hq : ∀ n, q (n + P) = q n) (a : Nat) :
    (List.range P).countP (fun i => q (a + i)) = (List.range P).countP q := by
  have hleft : (List.range (a + P)).countP q =
      (List.range a).countP q + (List.range P).countP fun i => q (a + i) := by
    rw [List.range_add, List.countP_append, List.countP_map]
    rfl
  have hright : (List.range (P + a)).countP q = (List.range P).countP q + (List.range a).countP q := by
    rw [List.range_add, List.countP_append, List.countP_map]
    congr 2
    funext n
    exact (congrArg q (Nat.add_comm P n)).trans (hq n)
  rw [Nat.add_comm P a] at hright
  omega

theorem countP_range_add_mod (p : Nat → Bool) (a P : Nat) :
    (List.range P).countP (fun i => p ((a + i) % P)) = (List.range P).countP p := by
  rw [countP_range_add (q := fun n => p (n % P)) (fun n => by rw [Nat.add_mod_right]) a]
  refine List.countP_congr ?_
  intro n hn
  rw [Nat.mod_eq_of_lt (List.mem_range.1 hn)]

theorem countP_range_lt (D P : Nat) : (List.range P).countP (fun n => n < D) = min D P := by
  induction P with
  | zero => simp
  | succ P ih =>
    rw [List.range_succ, List.countP_append, ih, List.countP_singleton]
    simp only [decide_eq_true_eq]
    split <;> omega

theorem countP_range_not (p : Nat → Bool) (P : Nat) :
    (List.range P).countP (fun n => !p n) = P - (List.range P).countP p := by
  have hlen := List.length_eq_countP_add_countP p (l := List.range P)
  have hnot : (List.range P).countP (fun n => !p n) = (List.range P).countP fun n => ¬ p n := by
    refine List.countP_congr fun n _ => ?_
    cases p n <;> simp
  rw [List.length_range] at hlen
  omega

theorem countP_range_eq {v P : Nat} (h : v < P) : (List.range P).countP (fun n => n = v) = 1 := by
  have hone : (List.range P).count v = 1 := List.count_eq_one_of_mem List.nodup_range (List.mem_range.2 h)
  rw [← hone, List.count]
  refine List.countP_congr ?_
  intro n _
  simp

/-- Adding `m` changes nothing modulo the divisors of `m`. -/
theorem add_emod_eq_iff (a m n : ℤ) : (a + m) % n = a % n ↔ n ∣ m := by
  rw [eq_comm]
  exact Int.modEq_iff_dvd.trans (by rw [add_sub_cancel_left])

end Residues
