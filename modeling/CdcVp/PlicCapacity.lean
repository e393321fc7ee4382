import CdcVp.PlicRegs

/-!
# How many sources the PLIC has room for

The enable and pending registers are one word and the register offsets are fixed, while the constructor takes any
number of sources. `OwnBits` is what each source needs of them; it is there up to source 31.
-/

namespace CdcVp
open FlatStore LittleEndian

namespace Plic
variable {n : Nat}

/-- All that a source needs to be eligible besides its enable bit. -/
def ReadyFor (p : Plic n) (id : Nat) : Prop :=
  p.line id = true ∧ p.isClaimed id = false ∧ p.threshold < p.priorityOf id

/-- Every source has its own bit in the enable and the pending word, its own priority word, and leaves the other
registers their addresses. -/
structure OwnBits (n : Nat) : Prop where
  shift (id : Nat) : 1 ≤ id → id ≤ n → id < 32
  enable (p : Plic n) (t : Payload) (ptr : List UInt8) (d id : Nat) : t.command = .write → t.dataPtr = some ptr →
    t.dataLength = 4 → t.address = kEnable → 1 ≤ id → id ≤ n →
      ((p.bTransport t d).1.eligible id ≠ p.eligible id ↔
        (wordOf ptr).toNat.testBit id ≠ p.enable.toNat.testBit id ∧ p.ReadyFor id)
  pending (p : Plic n) (t : Payload) (buf : List UInt8) (d : Nat) : t.command = .read → t.HasBuffer buf →
    t.dataLength = 4 → t.address = kPending → ∃ v : UInt32,
      (p.bTransport t d).2.1.dataPtr = some (bytes 4 v.toNat) ∧
        ∀ b, v.toNat.testBit b = true ↔ (1 ≤ b ∧ b ≤ n) ∧ p.line b = true
  priority (id : Nat) : 1 ≤ id → id ≤ n → decode n (UInt64.ofNat (4 * id)) = some (.priority id)
  fixed : decode n kPending = some .pending ∧ decode n kEnable = some .enable ∧
    decode n kThreshold = some .threshold ∧ decode n kClaim = some .claim

section
variable {p : Plic n} {id : Nat}

theorem eligible_iff_ready (hn : n ≤ 31) (h1 : 1 ≤ id) (h2 : id ≤ n) :
    p.eligible id = true ↔ p.enable.toNat.testBit id = true ∧ p.ReadyFor id := by
  rw [eligible_iff, enabled_iff (by omega), ReadyFor]
  constructor
  · rintro ⟨-, hl, he, hc, hp⟩
    exact ⟨he, hl, hc, hp⟩
  · rintro ⟨he, hl, hc, hp⟩
    exact ⟨⟨h1, h2⟩, hl, he, hc, hp⟩

theorem ne_iff_of_and {x y a b : Bool} {r : Prop} (hx : x = true ↔ a = true ∧ r) (hy : y = true ↔ b = true ∧ r) :
    x ≠ y ↔ a ≠ b ∧ r := by
  by_cases hr : r
  · simp only [hr, and_true, ← Bool.eq_iff_iff] at hx hy
    rw [hx, hy, and_iff_left hr]
  · simp only [hr, and_false, iff_false, Bool.not_eq_true] at hx hy
    exact iff_of_false (fun h => h (hx.trans hy.symm)) fun h => hr h.2

theorem toNat_bit (hid : id < 32) : ((1 : UInt32) <<< UInt32.ofNat id).toNat = 2 ^ id := by
  have hs : (UInt32.ofNat id).toNat = id := by
    rw [UInt32.toNat_ofNat', Nat.mod_eq_of_lt (by omega)]
  have hlt : 2 ^ id < 2 ^ 32 := Nat.pow_lt_pow_right (by decide) hid
  rw [UInt32.toNat_shiftLeft, hs, Nat.mod_eq_of_lt hid]
  show 1 <<< id % 2 ^ 32 = 2 ^ id
  rw [Nat.one_shiftLeft, Nat.mod_eq_of_lt hlt]

/-- The pending word has the bits of the high lines. -/
theorem testBit_pending (hn : n ≤ 31) (p : Plic n) (b : Nat) :
    p.pending.toNat.testBit b = true ↔ (1 ≤ b ∧ b ≤ n) ∧ p.line b = true := by
  have key (k : Nat) (hk : k ≤ 31) : ((List.range' 1 k).foldl (fun value id =>
      if p.line id then value ||| 1 <<< UInt32.ofNat id else value) (0 : UInt32)).toNat.testBit b = true ↔
        (1 ≤ b ∧ b ≤ k) ∧ p.line b = true := by
    induction k with
    | zero =>
      refine iff_of_false ?_ fun h => by omega
      show ¬ Nat.testBit 0 b = true
      rw [Nat.zero_testBit]
      exact Bool.false_ne_true
    | succ k ih =>
      rw [List.range'_1_concat, List.foldl_append, List.foldl_cons, List.foldl_nil]
      split
      · rename_i hl
        rw [UInt32.toNat_or, Nat.testBit_or, toNat_bit (by omega), Nat.testBit_two_pow, Bool.or_eq_true,
          ih (by omega), decide_eq_true_eq]
        constructor
        · rintro (⟨hb, hline⟩ | rfl)
          · exact ⟨by omega, hline⟩
          · exact ⟨by omega, hl⟩
        · rintro ⟨hb, hline⟩
          by_cases hbk : b ≤ k
          · exact .inl ⟨by omega, hline⟩
          · exact .inr (by omega)
      · rename_i hl
        rw [ih (by omega)]
        constructor
        · rintro ⟨hb, hline⟩
          exact ⟨by omega, hline⟩
        · rintro ⟨hb, hline⟩
          have hne : b ≠ 1 + k := by
            rintro rfl
            exact hl hline
          exact ⟨by omega, hline⟩
  exact key n hn

theorem ownBits (hn : n ≤ 31) : OwnBits n where
  shift id _ h2 := by omega
  enable p t ptr d id hc hp hl ha h1 h2 := by
    have hd : decode n t.address = some .enable := (decode_iff hn).2 ha
    rw [bTransport_write hp hl hd (by rw [hc]; decide)]
    have hq : ({ p with enable := wordOf ptr } : Plic n).updateMeip.eligible id = true ↔
        (wordOf ptr).toNat.testBit id = true ∧ p.ReadyFor id :=
      eligible_iff_ready (p := ({ p with enable := wordOf ptr } : Plic n).updateMeip) hn h1 h2
    exact ne_iff_of_and hq (eligible_iff_ready hn h1 h2)
  pending p t buf d hc hb hl ha := by
    have hd : decode n t.address = some .pending := (decode_iff hn).2 ha
    refine ⟨p.pending, ?_, testBit_pending hn p⟩
    rw [bTransport_read_word hb hl hd hc]
    rfl
  priority id h1 h2 := by
    refine (decode_iff hn).2 ⟨h2, ?_⟩
    rw [UInt64.toNat_ofNat', Nat.mod_eq_of_lt (by omega)]
    omega
  fixed := ⟨(decode_iff hn).2 rfl, (decode_iff hn).2 rfl, (decode_iff hn).2 rfl, (decode_iff hn).2 rfl⟩

/-- The priority block covers the pending register from 1024 sources on. -/
theorem decode_kPending_iff (hn : 4 * (n + 1) < 2 ^ 32) : decode n kPending = some .pending ↔ n ≤ 1023 := by
  have hend : (kPriorityBase + (4 * (UInt32.ofNat n + 1)).toUInt64).toNat = 4 * (n + 1) := by
    rw [kPriorityBase, UInt64.zero_add, UInt32.toNat_toUInt64, UInt32.toNat_mul, UInt32.toNat_add,
      UInt32.toNat_ofNat']
    show 4 * ((n % 2 ^ 32 + 1) % 2 ^ 32) % 2 ^ 32 = _
    omega
  have hlt : kPending < kPriorityBase + (4 * (UInt32.ofNat n + 1)).toUInt64 ↔ ¬ n ≤ 1023 := by
    rw [UInt64.lt_iff_toNat_lt, hend]
    show 0x1000 < 4 * (n + 1) ↔ _
    omega
  unfold decode
  by_cases h : n ≤ 1023
  · rw [if_neg fun hw => hlt.1 hw.2 h, if_pos rfl]
    exact iff_of_true rfl h
  · rw [if_pos ⟨UInt64.zero_le, hlt.2 h⟩]
    exact iff_of_false (by simp) h

end

end Plic

open Plic

/-- Every source has its own bits and words iff there are at most 31 sources; and from 1024 on the priority
block also covers the pending register. -/
theorem plic_capacity_iff (n : Nat) : (OwnBits n ↔ n ≤ 31) ∧
    (4 * (n + 1) < 2 ^ 32 → (decode n kPending = some .pending ↔ n ≤ 1023)) := by
  refine ⟨⟨?_, ownBits⟩, decode_kPending_iff⟩
  intro h
  by_contra hn
  exact absurd (h.shift 32 (by decide) (by omega)) (by decide)

/-- The constructor takes 32 sources, and source 32 has no bit. -/
theorem not_ownBits_32 : ¬ ∀ n, OwnBits n := by
  intro h
  exact absurd ((h 32).shift 32 (by decide) (by decide)) (by decide)

end CdcVp
