import CdcVp.Clint

/-!
# The window tests of the CLINT

`b_transport` cuts a slice out of `mtimecmp` or `mtime` when `addr` and `addr + len` pass a window test,
whose sum is 64 bits wide. `target` is the branch a transaction takes; `SliceBounds` is what the tests are
there for, and `clint_slice_bounds_iff` says when they give it.
-/

namespace CdcVp
open FlatStore LittleEndian ScEvent

namespace Clint
variable {c : Clint} {t : Payload} {base : UInt64} {ptr : List UInt8}

/-- The test of `b_transport` for the 8-byte register at `base`. -/
def InWindow (base : UInt64) (t : Payload) : Prop :=
  t.address ≥ base ∧ t.address + t.dataLength.toUInt64 ≤ base + 8

instance (base : UInt64) (t : Payload) : Decidable (InWindow base t) := by unfold InWindow; infer_instance

/-- The branches of `b_transport`. -/
inductive Target
  | noData
  | msip
  | mtimecmp
  | mtime
  | unmapped
deriving DecidableEq, Repr

def target (t : Payload) : Target :=
  if t.dataPtr = none then .noData
  else if t.address = kRegMsip ∧ t.dataLength = 4 then .msip
  else if InWindow kRegMtimecmp t then .mtimecmp
  else if InWindow kRegMtime t then .mtime
  else .unmapped

/-- The offset that `slice_read` and `slice_write` are called with. -/
def sub (base : UInt64) (t : Payload) : UInt32 := (t.address - base).toUInt32

/-! ### The branches -/

/-- `b_transport` by the branch it takes. -/
theorem bTransport_target (c : Clint) (t : Payload) (d : Nat) : c.bTransport t d =
    match target t with
    | .noData => some (c, { t with responseStatus := .genericError }, d + 10000)
    | .msip =>
      if t.command = .read then
        some (c, { t with
          dataPtr := some (blit (t.dataPtr.getD []) 0 (bytes 4 c.msip.toNat)), responseStatus := .ok }, d + 10000)
      else
        let msip := UInt32.ofNat (value ((t.dataPtr.getD []).take 4)) &&& 1
        some ({ c with msip := msip, cpu := c.cpu.setIrq kCauseSoftware (msip ≠ 0) },
          { t with responseStatus := .ok }, d + 10000)
    | .mtimecmp =>
      if t.command = .read then
        (sliceRead c.mtimecmp (sub kRegMtimecmp t).toNat t.dataLength.toNat).map fun bs =>
          (c, { t with dataPtr := some (blit (t.dataPtr.getD []) 0 bs), responseStatus := .ok }, d + 10000)
      else
        (sliceWrite c.mtimecmp (sub kRegMtimecmp t).toNat t.dataLength.toNat (t.dataPtr.getD [])).map fun v =>
          ({ c with mtimecmp := v, cmpEvent := .delta }, { t with responseStatus := .ok }, d + 10000)
    | .mtime =>
      if t.command = .read then
        (sliceRead c.nowMtime (sub kRegMtime t).toNat t.dataLength.toNat).map fun bs =>
          (c, { t with dataPtr := some (blit (t.dataPtr.getD []) 0 bs), responseStatus := .ok }, d + 10000)
      else some (c, { t with responseStatus := .ok }, d + 10000)
    | .unmapped => some (c, { t with responseStatus := .addressError }, d + 10000) := by
  cases hp : t.dataPtr with
  | none => simp only [bTransport, target, hp, if_true]
  | some ptr =>
    have hne : t.dataPtr ≠ none := by simp [hp]
    rw [target, if_neg hne]
    by_cases hmsip : t.address = kRegMsip ∧ t.dataLength = 4
    · rw [if_pos hmsip]
      simp only [bTransport, hp, if_pos hmsip, Option.getD_some]
    rw [if_neg hmsip]
    by_cases hcmp : InWindow kRegMtimecmp t
    · rw [if_pos hcmp]
      rw [InWindow] at hcmp
      simp only [bTransport, hp, if_neg hmsip, if_pos hcmp, Notification.notify_zero, sub, Option.getD_some]
    rw [if_neg hcmp]
    rw [InWindow] at hcmp
    by_cases hmtime : InWindow kRegMtime t
    · rw [if_pos hmtime]
      rw [InWindow] at hmtime
      simp only [bTransport, hp, if_neg hmsip, if_neg hcmp, if_pos hmtime, sub, Option.getD_some]
    · rw [if_neg hmtime]
      rw [InWindow] at hmtime
      simp only [bTransport, hp, if_neg hmsip, if_neg hcmp, if_neg hmtime]

theorem bTransport_noData (h : target t = .noData) (d : Nat) :
    c.bTransport t d = some (c, { t with responseStatus := .genericError }, d + 10000) := by
  rw [bTransport_target, h]

theorem bTransport_unmapped (h : target t = .unmapped) (d : Nat) :
    c.bTransport t d = some (c, { t with responseStatus := .addressError }, d + 10000) := by
  rw [bTransport_target, h]

/-- A transaction for `mtimecmp` reads or writes the slice it names. -/
theorem bTransport_mtimecmp (h : target t = .mtimecmp) (hp : t.dataPtr = some ptr) (d : Nat) :
    c.bTransport t d =
      if t.command = .read then
        (sliceRead c.mtimecmp (sub kRegMtimecmp t).toNat t.dataLength.toNat).map fun bs =>
          (c, { t with dataPtr := some (blit ptr 0 bs), responseStatus := .ok }, d + 10000)
      else
        (sliceWrite c.mtimecmp (sub kRegMtimecmp t).toNat t.dataLength.toNat ptr).map fun v =>
          ({ c with mtimecmp := v, cmpEvent := .delta }, { t with responseStatus := .ok }, d + 10000) := by
  rw [bTransport_target, h, hp]
  rfl

theorem target_eq_mtimecmp : target t = .mtimecmp ↔
    t.dataPtr.isSome ∧ ¬ (t.address = kRegMsip ∧ t.dataLength = 4) ∧ InWindow kRegMtimecmp t := by
  rw [target]
  cases t.dataPtr with
  | none => simp
  | some ptr =>
    simp only [Option.isSome_some, true_and, reduceCtorEq, if_false]
    split_ifs <;> simp [*]

theorem writesMtimecmp_iff : WritesMtimecmp t ↔ target t = .mtimecmp ∧ t.command ≠ .read := by
  rw [target_eq_mtimecmp, and_comm]
  rfl

/-! ### Slices inside the register -/

/-- The bytes of the transaction lie in the register at `base`, in exact integers, and so does the slice. -/
structure InRegister (base : UInt64) (t : Payload) : Prop where
  base_le : base.toNat ≤ t.address.toNat
  end_le : t.address.toNat + t.dataLength.toNat ≤ base.toNat + 8
  slice : (sub base t).toNat + t.dataLength.toNat ≤ 8

theorem inWindow_iff (hb : base.toNat + 8 < 2 ^ 64) : InWindow base t ↔ base.toNat ≤ t.address.toNat ∧
    (t.address.toNat + t.dataLength.toNat) % 2 ^ 64 ≤ base.toNat + 8 := by
  have hsum : (t.address + t.dataLength.toUInt64).toNat =
      (t.address.toNat + t.dataLength.toNat) % 2 ^ 64 := by
    rw [UInt64.toNat_add, UInt32.toNat_toUInt64]
  have hend : (base + 8).toNat = base.toNat + 8 := by
    rw [UInt64.toNat_add]
    exact Nat.mod_eq_of_lt hb
  rw [InWindow, ge_iff_le, UInt64.le_iff_toNat_le, UInt64.le_iff_toNat_le, hsum, hend]

theorem toNat_sub (h : base.toNat ≤ t.address.toNat) :
    (sub base t).toNat = (t.address.toNat - base.toNat) % 2 ^ 32 := by
  rw [sub, UInt64.toNat_toUInt32, UInt64.toNat_sub_of_le _ _ (UInt64.le_iff_toNat_le.2 h)]

/-- The offset is narrowed to 32 bits, which does nothing to one of at most 8. -/
theorem sub_toNat (h1 : base.toNat ≤ t.address.toNat)
    (h2 : t.address.toNat + t.dataLength.toNat ≤ base.toNat + 8) :
    (sub base t).toNat = t.address.toNat - base.toNat := by
  rw [toNat_sub h1]
  exact Nat.mod_eq_of_lt (by omega)

theorem inRegister_iff : InRegister base t ↔
    base.toNat ≤ t.address.toNat ∧ t.address.toNat + t.dataLength.toNat ≤ base.toNat + 8 := by
  refine ⟨fun h => ⟨h.base_le, h.end_le⟩, fun ⟨h1, h2⟩ => ⟨h1, h2, ?_⟩⟩
  rw [sub_toNat h1 h2]
  omega

namespace InRegister

theorem sub_eq (h : InRegister base t) : (sub base t).toNat = t.address.toNat - base.toNat :=
  sub_toNat h.base_le h.end_le

theorem exists_sliceRead (h : InRegister base t) (v : UInt64) :
    ∃ bs, sliceRead v (t.address.toNat - base.toNat) t.dataLength.toNat = some bs := by
  rw [sliceRead, ← h.sub_eq, if_pos h.slice]
  exact ⟨_, rfl⟩

theorem exists_sliceWrite (h : InRegister base t) (v : UInt64) (src : List UInt8) :
    ∃ v', sliceWrite v (t.address.toNat - base.toNat) t.dataLength.toNat src = some v' := by
  rw [sliceWrite, ← h.sub_eq, if_pos h.slice]
  exact ⟨_, rfl⟩

end InRegister

/-- A transaction in the window whose end does not wrap lies in the register. -/
theorem InWindow.inRegister (h : InWindow base t) (hb : base.toNat + 8 < 2 ^ 64)
    (hw : t.address.toNat + t.dataLength.toNat < 2 ^ 64) : InRegister base t := by
  obtain ⟨h1, h2⟩ := (inWindow_iff hb).1 h
  rw [Nat.mod_eq_of_lt hw] at h2
  exact inRegister_iff.2 ⟨h1, h2⟩

/-! ### When the tests hold -/

/-- A transaction taken for `mtimecmp` or `mtime` lies in that register, the slice it names is one of the
register's 8 bytes, and it is answered OK, with that slice read or written; a write of `mtime` does nothing.
One taken for none of the three, or without data, is answered with an error and changes nothing. -/
structure SliceBounds (c : Clint) (t : Payload) (d : Nat) : Prop where
  mtimecmp : target t = .mtimecmp → InRegister kRegMtimecmp t
  mtimecmp_read : target t = .mtimecmp → t.command = .read →
    ∃ bs, sliceRead c.mtimecmp (t.address.toNat - kRegMtimecmp.toNat) t.dataLength.toNat = some bs ∧
      c.bTransport t d = some (c, { t with
        dataPtr := some (blit (t.dataPtr.getD []) 0 bs), responseStatus := .ok }, d + 10000)
  mtimecmp_write : target t = .mtimecmp → t.command ≠ .read →
    ∃ v, sliceWrite c.mtimecmp (t.address.toNat - kRegMtimecmp.toNat) t.dataLength.toNat (t.dataPtr.getD []) =
        some v ∧
      c.bTransport t d =
        some ({ c with mtimecmp := v, cmpEvent := .delta }, { t with responseStatus := .ok }, d + 10000)
  mtime : target t = .mtime → InRegister kRegMtime t
  mtime_read : target t = .mtime → t.command = .read →
    ∃ bs, sliceRead c.nowMtime (t.address.toNat - kRegMtime.toNat) t.dataLength.toNat = some bs ∧
      c.bTransport t d = some (c, { t with
        dataPtr := some (blit (t.dataPtr.getD []) 0 bs), responseStatus := .ok }, d + 10000)
  mtime_write : target t = .mtime → t.command ≠ .read →
    c.bTransport t d = some (c, { t with responseStatus := .ok }, d + 10000)
  unmapped : target t = .unmapped →
    ∃ r, c.bTransport t d = some r ∧ r.2.1.responseStatus = .addressError ∧ r.1 = c
  noData : target t = .noData →
    ∃ r, c.bTransport t d = some r ∧ r.2.1.responseStatus = .genericError ∧ r.1 = c

/-- The end of the access passes `2 ^ 64` and comes out no higher than the end of `mtime`. -/
def WrapsBelow (t : Payload) : Prop :=
  2 ^ 64 ≤ t.address.toNat + t.dataLength.toNat ∧ t.address.toNat + t.dataLength.toNat ≤ 2 ^ 64 + 0xC000

/-- An access that wraps starts above both registers, so that its end alone decides. -/
theorem inWindow_of_wraps (hb : base.toNat ≤ 0xBFF8) (hw : 2 ^ 64 ≤ t.address.toNat + t.dataLength.toNat) :
    InWindow base t ↔ t.address.toNat + t.dataLength.toNat ≤ 2 ^ 64 + base.toNat + 8 := by
  have ha := t.address.toNat_lt
  have hl := t.dataLength.toNat_lt
  rw [inWindow_iff (by omega), Nat.mod_eq_sub_mod hw, Nat.mod_eq_of_lt (by omega)]
  omega

theorem not_inRegister_of_wraps (hb : base.toNat ≤ 0xBFF8)
    (hw : 2 ^ 64 ≤ t.address.toNat + t.dataLength.toNat) : ¬ InRegister base t := by
  intro h
  have := h.end_le
  omega

/-- A transaction that wraps below the end of `mtime` is taken for one of the two registers. -/
theorem target_of_wraps (hp : t.dataPtr ≠ none) (hw : WrapsBelow t) :
    target t = .mtimecmp ∨ target t = .mtime := by
  obtain ⟨hge, hle⟩ := hw
  have hl := t.dataLength.toNat_lt
  have hmsip : ¬ (t.address = kRegMsip ∧ t.dataLength = 4) := by
    rintro ⟨ha, -⟩
    rw [ha] at hge
    simp only [kRegMsip, UInt64.toNat_zero] at hge
    omega
  rw [target, if_neg hp, if_neg hmsip]
  by_cases hcmp : InWindow kRegMtimecmp t
  · exact .inl (if_pos hcmp)
  · have hmtime : InWindow kRegMtime t := (inWindow_of_wraps (by decide) hge).2 hle
    rw [if_neg hcmp, if_pos hmtime]
    exact .inr rfl

theorem inWindow_of_target (h : target t = .mtime) : InWindow kRegMtime t := by
  rw [target] at h
  split_ifs at h with _ _ _ hmtime
  exact hmtime

theorem target_ne_noData (h : target t ≠ .noData) : t.dataPtr ≠ none := by
  intro hp
  exact h (by rw [target, if_pos hp])

/-- What the tests accept without a wrap below the end of `mtime` lies in the register. -/
theorem inRegister_of_not_wraps (hb : base.toNat ≤ 0xBFF8) (hw : ¬ WrapsBelow t)
    (h : InWindow base t) : InRegister base t := by
  by_cases hge : 2 ^ 64 ≤ t.address.toNat + t.dataLength.toNat
  · have hend := (inWindow_of_wraps hb hge).1 h
    exact absurd ⟨hge, by omega⟩ hw
  · exact h.inRegister (by omega) (by omega)

/-- A transaction whose end does not wrap to the registers copies inside them. -/
theorem bTransport_defined (h : ¬ WrapsBelow t) (c : Clint) (d : Nat) : ∃ r, c.bTransport t d = some r := by
  rw [bTransport_target]
  cases ht : target t with
  | noData => exact ⟨_, rfl⟩
  | unmapped => exact ⟨_, rfl⟩
  | msip =>
    dsimp only
    split
    · exact ⟨_, rfl⟩
    · exact ⟨_, rfl⟩
  | mtimecmp =>
    have hin := inRegister_of_not_wraps (by decide) h (target_eq_mtimecmp.1 ht).2.2
    simp only [sliceRead, sliceWrite, if_pos hin.slice, Option.map_some]
    split
    · exact ⟨_, rfl⟩
    · exact ⟨_, rfl⟩
  | mtime =>
    have hin := inRegister_of_not_wraps (by decide) h (inWindow_of_target ht)
    simp only [sliceRead, if_pos hin.slice, Option.map_some]
    split
    · exact ⟨_, rfl⟩
    · exact ⟨_, rfl⟩

end Clint

open Clint

/-- The slices stay inside their registers exactly where `addr + len` does not wrap to `0xC000` or below; there
they are read and written, and everything else is refused. -/
theorem clint_slice_bounds_iff (c : Clint) (t : Payload) (d : Nat) :
    SliceBounds c t d ↔ t.dataPtr = none ∨ ¬ WrapsBelow t := by
  constructor
  · intro h
    by_contra hn
    obtain ⟨hp, hw⟩ := not_or.1 hn
    rcases target_of_wraps hp (not_not.1 hw) with ht | ht
    · exact not_inRegister_of_wraps (by decide) (not_not.1 hw).1 (h.mtimecmp ht)
    · exact not_inRegister_of_wraps (by decide) (not_not.1 hw).1 (h.mtime ht)
  · intro h
    have hbound (hne : target t ≠ .noData) : ¬ WrapsBelow t := h.resolve_left (target_ne_noData hne)
    have hcmp (ht : target t = .mtimecmp) : InRegister kRegMtimecmp t :=
      inRegister_of_not_wraps (by decide) (hbound (by simp [ht])) (target_eq_mtimecmp.1 ht).2.2
    have hmtime (ht : target t = .mtime) : InRegister kRegMtime t :=
      inRegister_of_not_wraps (by decide) (hbound (by simp [ht])) (inWindow_of_target ht)
    refine ⟨hcmp, fun ht hr => ?_, fun ht hr => ?_, hmtime, fun ht hr => ?_, fun ht hr => ?_, fun ht => ?_,
      fun ht => ?_⟩
    · obtain ⟨bs, hbs⟩ := (hcmp ht).exists_sliceRead c.mtimecmp
      refine ⟨bs, hbs, ?_⟩
      simp only [bTransport_target, ht, if_pos hr, (hcmp ht).sub_eq, hbs, Option.map_some]
    · obtain ⟨v, hv⟩ := (hcmp ht).exists_sliceWrite c.mtimecmp (t.dataPtr.getD [])
      refine ⟨v, hv, ?_⟩
      simp only [bTransport_target, ht, if_neg hr, (hcmp ht).sub_eq, hv, Option.map_some]
    · obtain ⟨bs, hbs⟩ := (hmtime ht).exists_sliceRead c.nowMtime
      refine ⟨bs, hbs, ?_⟩
      simp only [bTransport_target, ht, if_pos hr, (hmtime ht).sub_eq, hbs, Option.map_some]
    · simp only [bTransport_target, ht, if_neg hr]
    · exact ⟨_, bTransport_unmapped ht d, rfl, rfl⟩
    · exact ⟨_, bTransport_noData ht d, rfl, rfl⟩

/-- Eight bytes from `2 ^ 64 - 8`: the sum is 0 and the transaction is taken for one of `mtimecmp`. -/
def wrappedWrite : Payload :=
  ⟨.write, 0xFFFFFFFFFFFFFFF8, some [0, 0, 0, 0, 0, 0, 0, 0], 8, .incomplete, false⟩

theorem not_sliceBounds_wrappedWrite : ¬ SliceBounds Clint.new wrappedWrite 0 ∧
    target wrappedWrite = .mtimecmp ∧ Clint.new.bTransport wrappedWrite 0 = none := by
  have ht : target wrappedWrite = .mtimecmp := by decide
  have hnone : Clint.new.bTransport wrappedWrite 0 = none := by
    simp only [bTransport_target, ht]
    decide
  refine ⟨fun h => ?_, ht, hnone⟩
  obtain ⟨v, -, hb⟩ := h.mtimecmp_write ht (by decide)
  cases hnone.symm.trans hb

end CdcVp
