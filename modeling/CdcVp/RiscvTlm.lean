import CdcVp.CpuBase
import CdcVp.LittleEndian
import CdcVp.Runs
import CdcVp.Tlm

/-!
# `riscv_tlm_cpu`

The interrupt input of the edge backend. The core clears what is pending once it has taken it, so a cause is
injected by a transaction on `irq_port_`; `after calls` is the wrapper once the controllers have made the
calls. `EdgeDriven` says that a cause is injected on its rising edges and at no other time.
-/

namespace CdcVp
open LittleEndian Runs

/-- `riscv_tlm_cpu`: the transactions it has sent to the core's `irq_line_socket`, in order. -/
structure RiscvTlmCpu where
  injected : List Payload := []
deriving DecidableEq

namespace RiscvTlmCpu

/-- The transaction of `raise_irq`. -/
def irqTransaction (cause : Nat) : Payload where
  command := .ignore
  address := 0
  dataPtr := some (bytes 4 (UInt32.ofNat cause).toNat)
  dataLength := 4

def raiseIrq (c : RiscvTlmCpu) (cause : Nat) : RiscvTlmCpu := ⟨c.injected ++ [irqTransaction cause]⟩

def setIrq (c : RiscvTlmCpu) (cause : Nat) (level : Bool) : RiscvTlmCpu :=
  if level then c.raiseIrq cause else c

/-- The wrapper after further calls of `set_irq`. -/
def drive (c : RiscvTlmCpu) (calls : List IrqCall) : RiscvTlmCpu :=
  calls.foldl (fun c k => c.setIrq k.cause k.level) c

def after (calls : List IrqCall) : RiscvTlmCpu := drive {} calls

/-- A call injects its cause once if it takes the level from low to high, and nothing else. -/
def EdgeDriven (cause : Nat) (calls : List IrqCall) : Prop :=
  ∀ pre k post, calls = pre ++ k :: post → k.cause = cause →
    (after (pre ++ [k])).injected = (after pre).injected ++
      if k.level = true ∧ (IrqPort.mk pre).level cause = false then [irqTransaction cause] else []

def Raises (cause : Nat) (k : IrqCall) : Prop := k.cause = cause ∧ k.level = true

def Lowers (cause : Nat) (k : IrqCall) : Prop := k.cause = cause ∧ k.level = false

section
variable {cause : Nat} {calls : List IrqCall} {k : IrqCall}

theorem drive_append (c : RiscvTlmCpu) (calls calls' : List IrqCall) :
    c.drive (calls ++ calls') = (c.drive calls).drive calls' :=
  List.foldl_append

theorem level_snoc (calls : List IrqCall) (k : IrqCall) (cause : Nat) :
    (IrqPort.mk (calls ++ [k])).level cause = if k.cause = cause then k.level else (IrqPort.mk calls).level cause := by
  split
  · rename_i hk
    subst hk
    exact IrqPort.level_setIrq_self ⟨calls⟩ k.cause k.level
  · rename_i hk
    exact IrqPort.level_setIrq_of_ne ⟨calls⟩ k.level hk

/-- The level last driven is a flag that the calls set and clear. -/
theorem level_iff_latched : (IrqPort.mk calls).level cause = true ↔ Latched (Raises cause) (Lowers cause) calls := by
  induction calls using List.reverseRecOn with
  | nil => exact iff_of_false (by simp [IrqPort.level]) not_latched_nil
  | append_singleton calls k ih =>
    rw [level_snoc, latched_snoc, Raises, Lowers]
    by_cases hk : k.cause = cause
    · simp [hk]
    · simp only [hk, if_false, ih, false_and, false_or, not_false_eq_true, and_true]

theorem injected_snoc (calls : List IrqCall) (k : IrqCall) : (after (calls ++ [k])).injected =
    (after calls).injected ++ if k.level = true then [irqTransaction k.cause] else [] := by
  rw [after, drive_append]
  show ((drive {} calls).setIrq k.cause k.level).injected = _
  cases hl : k.level with
  | true => rfl
  | false => exact (List.append_nil _).symm

/-- The wrapper injects on edges only iff no call repeats a high level. -/
theorem edgeDriven_iff : EdgeDriven cause calls ↔ SetsFresh (Raises cause) (Lowers cause) calls := by
  have hlow {pre : List IrqCall} : ¬ Latched (Raises cause) (Lowers cause) pre ↔
      (IrqPort.mk pre).level cause = false := by
    rw [← level_iff_latched, Bool.not_eq_true]
  constructor
  · rintro hedge pre k post rfl ⟨rfl, hk⟩
    have := hedge pre k post rfl rfl
    rw [injected_snoc, List.append_cancel_left_eq, if_pos hk] at this
    rw [hlow]
    by_contra hl
    rw [if_neg fun h => hl h.2] at this
    cases this
  · rintro hfresh pre k post rfl rfl
    rw [injected_snoc, List.append_cancel_left_eq]
    by_cases hk : k.level = true
    · rw [if_pos hk, if_pos ⟨hk, hlow.1 (hfresh pre k post rfl ⟨rfl, hk⟩)⟩]
    · rw [if_neg hk, if_neg fun h => hk h.1]

end

end RiscvTlmCpu
end CdcVp
