import CdcVp.ClintLevel
import CdcVp.IgnoreCommand
import CdcVp.PlicLevel
import CdcVp.SocRuns

/-!
# The platform's interrupt levels

The CPU takes the calls of both controllers, and `Wired` says that each cause has the level its controller last
drove. `settled` reads the three levels off the registers, in every reachable state in which the controllers have
nothing left to do for the current time.
-/

namespace CdcVp
open Runs

theorem IrqPort.level_drive_single (c : IrqPort) (k : IrqCall) (cause : Nat) :
    (c.drive [k]).level cause = if k.cause = cause then k.level else c.level cause :=
  RiscvTlmCpu.level_snoc c.calls k cause

theorem IrqPort.drive_nil (c : IrqPort) : c.drive [] = c := by
  rw [drive, List.append_nil]

namespace RiscvCustomSoc
variable {υ ι : Type*} {ip : Ip υ ι} {s s' : RiscvCustomSoc υ ι} {op : Op υ ι} {is : List (Op υ ι)}
  {o os : List Payload} {uart : υ} {i2c : ι}

/-- The PLIC drives the external interrupt of the CPU, and the CLINT the others. -/
structure Wired (s : RiscvCustomSoc υ ι) : Prop where
  external : s.cpu.level Plic.kCauseExternal = s.plic.cpu.level Plic.kCauseExternal
  clint (cause : Nat) : cause ≠ Plic.kCauseExternal → s.cpu.level cause = s.clint.cpu.level cause

/-- The controllers have nothing left to do for the current time. -/
structure Settled (s : RiscvCustomSoc υ ι) : Prop where
  plic : s.plic.onSourcesReady = false
  clint : ¬ s.clint.PendingNow

instance (s : RiscvCustomSoc υ ι) : Decidable (Settled s) :=
  decidable_of_iff (s.plic.onSourcesReady = false ∧ ¬ s.clint.PendingNow)
    ⟨fun h => ⟨h.1, h.2⟩, fun h => ⟨h.plic, h.clint⟩⟩

namespace Wired

theorem new (uart : υ) (i2c : ι) : Wired (RiscvCustomSoc.new uart i2c) := ⟨rfl, fun _ _ => rfl⟩

theorem withPlic (hw : Wired s) {j : Plic.Op kNumPlicSources} {p : Plic kNumPlicSources} {ev : List Plic.Event}
    (h : Plic.machine kNumPlicSources s.plic j = some (p, ev)) : Wired (s.withPlic p) := by
  rcases Plic.step_drives h with ⟨k, -, hk, hcpu⟩ | ⟨-, hcpu⟩
  · have hsince : p.cpu.since s.plic.cpu = [k] := by rw [hcpu, IrqPort.since_setIrq]
    have hlevel (cause : Nat) : (s.withPlic p).cpu.level cause =
        if k.cause = cause then k.level else s.cpu.level cause := by
      rw [RiscvCustomSoc.withPlic, hsince]
      exact IrqPort.level_drive_single _ _ _
    refine ⟨?_, ?_⟩
    · rw [hlevel, if_pos hk]
      show k.level = p.cpu.level Plic.kCauseExternal
      rw [hcpu, ← hk, IrqPort.level_setIrq_self]
    · intro cause hne
      rw [hlevel, if_neg fun h => hne (h.symm.trans hk)]
      exact hw.clint cause hne
  · have hsame : (s.withPlic p).cpu = s.cpu := by
      rw [RiscvCustomSoc.withPlic, hcpu, IrqPort.since_self]
      exact IrqPort.drive_nil _
    refine ⟨?_, ?_⟩
    · rw [hsame, hw.external, RiscvCustomSoc.withPlic, hcpu]
    · intro cause hne
      rw [hsame]
      exact hw.clint cause hne

theorem withClint (hw : Wired s) {j : Clint.Op} {c : Clint} {ev : List Clint.Event}
    (h : Clint.machine s.clint j = some (c, ev)) : Wired (s.withClint c) := by
  rcases Clint.step_drives h with ⟨k, -, hk, hcpu⟩ | ⟨-, hcpu⟩
  · have hsince : c.cpu.since s.clint.cpu = [k] := by rw [hcpu, IrqPort.since_setIrq]
    have hlevel (cause : Nat) : (s.withClint c).cpu.level cause =
        if k.cause = cause then k.level else s.cpu.level cause := by
      rw [RiscvCustomSoc.withClint, hsince]
      exact IrqPort.level_drive_single _ _ _
    refine ⟨?_, ?_⟩
    · rw [hlevel, if_neg hk]
      exact hw.external
    · intro cause hne
      have hown : (s.withClint c).clint.cpu.level cause =
          if k.cause = cause then k.level else s.clint.cpu.level cause := by
        show c.cpu.level cause = _
        rw [hcpu]
        exact RiscvTlmCpu.level_snoc s.clint.cpu.calls k cause
      rw [hlevel, hown, hw.clint cause hne]
  · have hsame : (s.withClint c).cpu = s.cpu := by
      rw [RiscvCustomSoc.withClint, hcpu, IrqPort.since_self]
      exact IrqPort.drive_nil _
    refine ⟨?_, ?_⟩
    · rw [hsame]
      exact hw.external
    · intro cause hne
      rw [hsame, hw.clint cause hne, RiscvCustomSoc.withClint, hcpu]

theorem step (h : machine ip s op = some (s', o)) (hw : Wired s) : Wired s' := by
  have hact := step_acts h
  generalize dispatch op = a at hact
  rcases hact with _ | _ | ⟨_, _, _, hc⟩ | ⟨_, _, _, hp⟩ | _ | _
  · exact ⟨hw.external, hw.clint⟩
  · exact ⟨hw.external, hw.clint⟩
  · exact hw.withClint hc
  · exact hw.withPlic hp
  · exact ⟨hw.external, hw.clint⟩
  · exact hw

theorem run (h : Run (machine ip) (RiscvCustomSoc.new uart i2c) is os s) : Wired s :=
  h.inv Wired (new uart i2c) fun _ _ _ _ => step

end Wired

/-! ### The three levels -/

theorem eligible_one (p : Plic kNumPlicSources) : p.AnyEligible ↔ p.line 1 = true ∧
    p.enable.toNat.testBit 1 = true ∧ p.threshold < p.priorityOf 1 ∧ p.isClaimed 1 = false := by
  constructor
  · rintro ⟨id, hid⟩
    obtain ⟨hle, hl, hen, hcl, hp⟩ := Plic.eligible_iff.1 hid
    obtain rfl : id = 1 := Nat.le_antisymm hle.2 hle.1
    exact ⟨hl, (Plic.enabled_iff (by decide)).1 hen, hp, hcl⟩
  · rintro ⟨hl, hen, hp, hcl⟩
    exact ⟨1, Plic.eligible_iff.2 ⟨by decide, hl, (Plic.enabled_iff (by decide)).2 hen, hcl, hp⟩⟩

theorem external_level (h : Run (machine ip) (new uart i2c) is os s) (hdue : s.plic.onSourcesReady = false) :
    s.cpu.level Plic.kCauseExternal = true ↔ s.plic.line 1 = true ∧ s.plic.enable.toNat.testBit 1 = true ∧
      s.plic.threshold < s.plic.priorityOf 1 ∧ s.plic.isClaimed 1 = false := by
  obtain ⟨⟨ps, hp⟩, -⟩ := run_controllers h
  rw [(Wired.run h).external, Plic.fresh_run hp hdue, eligible_one]

theorem software_level (h : Run (machine ip) (new uart i2c) is os s) :
    s.cpu.level Clint.kCauseSoftware = true ↔ s.clint.msip ≠ 0 := by
  obtain ⟨-, cs, hc⟩ := run_controllers h
  rw [(Wired.run h).clint _ (by decide)]
  exact Clint.softwareLevel_run hc

theorem timer_run (h : Run (machine ip) (new uart i2c) is os s) : Clint.Timer s.clint := by
  obtain ⟨-, cs, hc⟩ := run_controllers h
  exact hc.inv Clint.Timer .new fun _ _ _ _ => .step

theorem timer_level (h : Run (machine ip) (new uart i2c) is os s) (hquiet : ¬ s.clint.PendingNow) :
    s.cpu.level Clint.kCauseTimer = true ↔ s.clint.Fired := by
  rw [(Wired.run h).clint _ (by decide)]
  exact (timer_run h).settled hquiet

end RiscvCustomSoc
end CdcVp
