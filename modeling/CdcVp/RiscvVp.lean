import CdcVp.SocLevel

/-!
# `riscv_vp_cpu`

The interrupt input of the level backend. The instruction set simulator is code from elsewhere: `Iss` are its
inputs, and `LevelInputs` that each holds its own bit of `mip`. `Hart` is a hart whose wrapper takes the calls of
the controllers, with instructions run in between. The bits then follow the platform's registers.
-/

namespace CdcVp
open Runs

/-- The interrupt inputs of the simulator, and the machine-level bits of `mip`. -/
structure Iss (η : Type*) where
  triggerSoftwareInterrupt : η → Bool → η
  triggerTimerInterrupt : η → Bool → η
  triggerExternalInterrupt : η → η
  clearExternalInterrupt : η → η
  mip : η → Nat → Bool

namespace RiscvVpCpu
variable {η : Type*} {iss : Iss η} {h h' h₀ : η} {calls : List IrqCall} {k : IrqCall} {cause : Nat}

/-- `riscv_vp_cpu::set_irq`. -/
def setIrq (iss : Iss η) (h : η) (cause : Nat) (level : Bool) : η :=
  match cause with
  | 3 => iss.triggerSoftwareInterrupt h level
  | 7 => iss.triggerTimerInterrupt h level
  | 11 => if level then iss.triggerExternalInterrupt h else iss.clearExternalInterrupt h
  | _ => h

/-- Each input sets or clears its own bit, and leaves the others. -/
structure LevelInputs (iss : Iss η) : Prop where
  software (h : η) (level : Bool) (cause : Nat) :
    iss.mip (iss.triggerSoftwareInterrupt h level) cause = if cause = 3 then level else iss.mip h cause
  timer (h : η) (level : Bool) (cause : Nat) :
    iss.mip (iss.triggerTimerInterrupt h level) cause = if cause = 7 then level else iss.mip h cause
  trigger (h : η) (cause : Nat) :
    iss.mip (iss.triggerExternalInterrupt h) cause = if cause = 11 then true else iss.mip h cause
  clear (h : η) (cause : Nat) :
    iss.mip (iss.clearExternalInterrupt h) cause = if cause = 11 then false else iss.mip h cause

/-- The causes that the controllers drive. -/
def Wire (cause : Nat) : Prop := cause = 3 ∨ cause = 7 ∨ cause = 11

/-- The hart has taken the calls, in order. The instructions it ran in between have no effect on the bits that the
controllers hold. -/
inductive Hart (iss : Iss η) (h₀ : η) : List IrqCall → η → Prop
  | start : Hart iss h₀ [] h₀
  | call {calls : List IrqCall} {h : η} (k : IrqCall) :
    Hart iss h₀ calls h → Hart iss h₀ (calls ++ [k]) (setIrq iss h k.cause k.level)
  | run {calls : List IrqCall} {h h' : η} :
    Hart iss h₀ calls h → (∀ cause, Wire cause → iss.mip h' cause = iss.mip h cause) → Hart iss h₀ calls h'

/-- A call sets the bit of its cause to its level. -/
theorem mip_setIrq (hiss : LevelInputs iss) (h : η) (k : IrqCall) (hc : Wire cause) :
    iss.mip (setIrq iss h k.cause k.level) cause = if k.cause = cause then k.level else iss.mip h cause := by
  obtain ⟨source, level⟩ := k
  by_cases h3 : source = 3
  · subst h3
    simp only [setIrq, hiss.software, eq_comm (a := cause)]
  by_cases h7 : source = 7
  · subst h7
    simp only [setIrq, hiss.timer, eq_comm (a := cause)]
  by_cases h11 : source = 11
  · subst h11
    cases level with
    | false => simp only [setIrq, Bool.false_eq_true, if_false, hiss.clear, eq_comm (a := cause)]
    | true => simp only [setIrq, if_true, hiss.trigger, eq_comm (a := cause)]
  have hno : setIrq iss h source level = h := by
    unfold setIrq
    split
    · exact absurd rfl h3
    · exact absurd rfl h7
    · exact absurd rfl h11
    · rfl
  have hne : source ≠ cause := by
    rintro rfl
    rcases hc with hc | hc | hc
    · exact h3 hc
    · exact h7 hc
    · exact h11 hc
  rw [hno, if_neg hne]

/-- The bit of a cause is the level last driven on it. -/
theorem mip_eq_level (hiss : LevelInputs iss) (hrun : Hart iss h₀ calls h) (hc : Wire cause)
    (h0 : iss.mip h₀ cause = false) : iss.mip h cause = (IrqPort.mk calls).level cause := by
  induction hrun with
  | start => rw [h0]; rfl
  | call k _ ih => rw [mip_setIrq hiss _ k hc, RiscvTlmCpu.level_snoc, ih]
  | run _ hsame ih => rw [hsame cause hc, ih]

end RiscvVpCpu

open RiscvCustomSoc RiscvVpCpu

/-- The platform on the level backend. In every reachable state in which the controllers have nothing left to do,
the pending bits of a hart that has taken their calls are what the registers say: MEIP whether source 1 of the PLIC
is up, enabled, above the threshold and not claimed, MTIP whether `mtime` has reached `mtimecmp`, MSIP whether `msip`
is set. -/
theorem riscv_vp_pending {η υ ι : Type*} (iss : Iss η) (hiss : LevelInputs iss) (h₀ h : η)
    (hclear : ∀ cause, Wire cause → iss.mip h₀ cause = false) (ip : Ip υ ι) (uart : υ) (i2c : ι)
    (is : List (Op υ ι)) (os : List Payload) (s : RiscvCustomSoc υ ι)
    (hrun : Run (machine ip) (new uart i2c) is os s) (hhart : Hart iss h₀ s.cpu.calls h) (hset : Settled s) :
    (iss.mip h 11 = true ↔ s.plic.line 1 = true ∧ s.plic.enable.toNat.testBit 1 = true ∧
      s.plic.threshold < s.plic.priorityOf 1 ∧ s.plic.isClaimed 1 = false) ∧
    (iss.mip h 7 = true ↔ s.clint.mtimecmp ≠ 0 ∧ s.clint.mtimecmp.toNat ≤ s.clint.now.toNat / 10 ^ 6) ∧
    (iss.mip h 3 = true ↔ s.clint.msip ≠ 0) := by
  have hbit (cause : Nat) (hc : Wire cause) : iss.mip h cause = s.cpu.level cause :=
    mip_eq_level hiss hhart hc (hclear cause hc)
  rw [hbit 11 (by simp [Wire]), hbit 7 (by simp [Wire]), hbit 3 (by simp [Wire])]
  exact ⟨external_level hrun hset.plic, timer_level hrun hset.clint, software_level hrun⟩

namespace RiscvVpCpu

/-- The bits alone. -/
def bits : Iss (Nat → Bool) where
  triggerSoftwareInterrupt h level := Function.update h 3 level
  triggerTimerInterrupt h level := Function.update h 7 level
  triggerExternalInterrupt h := Function.update h 11 true
  clearExternalInterrupt h := Function.update h 11 false
  mip h := h

theorem levelInputs_bits : LevelInputs bits := by
  constructor <;> intros <;> simp only [bits, Function.update_apply]

theorem exists_hart {η : Type*} (iss : Iss η) (h₀ : η) (calls : List IrqCall) : ∃ h, Hart iss h₀ calls h := by
  induction calls using List.reverseRecOn with
  | nil => exact ⟨h₀, .start⟩
  | append_singleton calls k ih =>
    obtain ⟨h, hh⟩ := ih
    exact ⟨_, .call k hh⟩

end RiscvVpCpu

/-- The I2C's interrupt, with source 1 enabled at priority 1. -/
theorem riscv_vp_pending_raised : ∃ (is : List (Op Unit Unit)) (os : List Payload) (s : RiscvCustomSoc Unit Unit)
    (h : Nat → Bool), Run (machine Ip.idle) (new () ()) is os s ∧ Hart bits (fun _ => false) s.cpu.calls h ∧
      bits.mip h 11 = true := by
  have hok : (exec (machine Ip.idle) (new () ()) [
      .transport ⟨.write, 0x0C000004, some [1, 0, 0, 0], 4, .incomplete, false⟩ 0,
      .transport ⟨.write, 0x0C002000, some [2, 0, 0, 0], 4, .incomplete, false⟩ 0,
      .i2cIrq true, .onSources, .kernel .start]).any (fun r => decide (Settled r.1) &&
        decide (r.1.plic.line 1 = true ∧ r.1.plic.enable.toNat.testBit 1 = true ∧
          r.1.plic.threshold < r.1.plic.priorityOf 1 ∧ r.1.plic.isClaimed 1 = false)) = true := by
    decide +kernel
  obtain ⟨⟨s, os⟩, hs, hr⟩ := (Option.any_eq_true _ _).1 hok
  obtain ⟨hset, hup⟩ := Bool.and_eq_true_iff.1 hr
  obtain ⟨h, hh⟩ := exists_hart bits (fun _ => false) s.cpu.calls
  exact ⟨_, os, s, h, .of_exec hs, hh, (riscv_vp_pending bits levelInputs_bits _ h (fun _ _ => rfl) Ip.idle () ()
    _ _ s (.of_exec hs) hh (of_decide_eq_true hset)).1.2 (of_decide_eq_true hup)⟩

end CdcVp
