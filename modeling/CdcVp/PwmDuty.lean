import CdcVp.PwmTicks
import CdcVp.Residues

/-!
# The duty cycle of the PWM

In a period's worth of ticks the position that is compared with the duty cycle takes every value below the
period once: the counter walks through the residues, and the phase delay turns them.
-/

namespace CdcVp
open FlatStore LittleEndian Runs Residues

namespace PwmRegs
variable {r : PwmRegs} {c : UInt16}

/-- The positions compared with the duty cycle are consecutive. -/
theorem Countable.position (h : r.Countable) (hF : r.phaseDelay.toNat ≤ r.period.toNat) (i : Nat) :
    (r.shifted (r.counters c (i + 1))).toNat =
      (c.toNat + 1 + (r.period.toNat - r.phaseDelay.toNat) + i) % r.period.toNat := by
  rw [h.shifted (hF.trans (Nat.le_add_left _ _)), h.counters, Nat.add_sub_assoc hF, Nat.mod_add_mod]
  congr 1
  omega

/-- The ticks of a window in which the output is high before INVERT. -/
theorem Countable.countP_pwm (h : r.Countable) (hF : r.phaseDelay.toNat ≤ r.period.toNat)
    (hen : r.pwmEnabled = true) : (List.range r.period.toNat).countP (fun i => r.pwm (r.counters c (i + 1))) =
      min r.dutyCycle.toNat r.period.toNat := by
  rw [← countP_range_lt]
  refine Eq.trans (List.countP_congr fun i _ => ?_)
    (countP_range_add_mod (fun n => n < r.dutyCycle.toNat)
      (c.toNat + 1 + (r.period.toNat - r.phaseDelay.toNat)) r.period.toNat)
  rw [pwm_iff, h.position hF, decide_eq_true_eq]
  exact and_iff_right hen

theorem pwm_of_disabled (h : r.pwmEnabled = false) : r.pwm c = false := by
  rw [pwm, h, Bool.false_and]

end PwmRegs

open Pwm PwmRegs

/-- The duty cycle of the PWM. Over a window of one period of ticks, from any state and with the registers held,
`pwm_out` is driven high on `min(D, P)` ticks, with INVERT set on the others; with PWM_EN clear on none, with
INVERT set on all. What a tick drives is on `pwm_out` while time passes, up to the next tick. -/
theorem pwm_duty_exact (s s' : Pwm) (is : List Op) (tr : List (Step Pwm Op Obs))
    (hrun : Run (traced machine) s is tr s') (held : ∀ e ∈ tr, e.post.reg = s.reg)
    (hP : 1 ≤ s.reg.period.toNat ∧ s.reg.period.toNat ≤ 65536)
    (hF : s.reg.phaseDelay.toNat ≤ s.reg.period.toNat)
    (hwindow : (ticks tr).length = s.reg.period.toNat) :
    (s.reg.pwmEnabled = true → s.reg.inverted = false →
      (ticks tr).countP Prod.snd = min s.reg.dutyCycle.toNat s.reg.period.toNat) ∧
    (s.reg.pwmEnabled = true → s.reg.inverted = true →
      (ticks tr).countP Prod.snd = s.reg.period.toNat - min s.reg.dutyCycle.toNat s.reg.period.toNat) ∧
    (s.reg.pwmEnabled = false → s.reg.inverted = false → (ticks tr).countP Prod.snd = 0) ∧
    (s.reg.pwmEnabled = false → s.reg.inverted = true →
      (ticks tr).countP Prod.snd = s.reg.period.toNat) ∧ Shown tr := by
  have hc : s.reg.Countable := hP
  have hticks := (ticked_of_run hrun held).ticks
  rw [hwindow] at hticks
  have hcount : (ticks tr).countP Prod.snd =
      (List.range s.reg.period.toNat).countP fun i => s.reg.level (s.reg.counters s.counter (i + 1)) := by
    rw [hticks, ticksFrom, List.countP_map]
    rfl
  have hplain : s.reg.inverted = false → (ticks tr).countP Prod.snd =
      (List.range s.reg.period.toNat).countP fun i => s.reg.pwm (s.reg.counters s.counter (i + 1)) := by
    intro hi
    simp only [hcount, level, hi, Bool.false_eq_true, if_false]
  have hinv : s.reg.inverted = true → (ticks tr).countP Prod.snd = s.reg.period.toNat -
      (List.range s.reg.period.toNat).countP fun i => s.reg.pwm (s.reg.counters s.counter (i + 1)) := by
    intro hi
    simp only [hcount, level, hi, if_true]
    exact countP_range_not _ _
  have hoff : s.reg.pwmEnabled = false → (List.range s.reg.period.toNat).countP
      (fun i => s.reg.pwm (s.reg.counters s.counter (i + 1))) = 0 := by
    intro hen
    rw [List.countP_eq_zero]
    intro i _
    rw [pwm_of_disabled hen]
    exact Bool.false_ne_true
  refine ⟨fun hen hi => ?_, fun hen hi => ?_, fun hen hi => ?_, fun hen hi => ?_, shown_of_run hrun⟩
  · rw [hplain hi, hc.countP_pwm hF hen]
  · rw [hinv hi, hc.countP_pwm hF hen]
  · rw [hplain hi, hoff hen]
  · rw [hinv hi, hoff hen, Nat.sub_zero]

/-- A period of 4 with 3 ticks high, delayed by one. -/
def threeOfFour : List Op :=
  [.pwmThread, pwmWrite 0x30 4, pwmWrite 0x2C 3, pwmWrite 0x14 1, pwmWrite 0x0C 1, pwmWrite 0x08 0x80000000]

def fourPwmTicks : List Op :=
  (List.range 4).flatMap fun i => [.delta, .advance (10000 * (i + 1)), .pwmThread]

theorem pwm_duty_exact_threeOfFour : ∃ (os : List Obs) (s s' : Pwm) (tr : List (Step Pwm Op Obs)),
    Run machine new threeOfFour os s ∧ Run (traced machine) s fourPwmTicks tr s' ∧
      ticks tr = [(1, true), (2, true), (3, true), (0, false)] ∧ (ticks tr).countP Prod.snd = 3 ∧ Shown tr := by
  have hx : ((exec machine new threeOfFour).bind fun p =>
      (exec (traced machine) p.1 fourPwmTicks).map fun r =>
        (p.1.reg, ticks r.2, r.2.all fun e => e.post.reg = p.1.reg)) =
      some (⟨0x80000000, 1, 0, 1, 3, 4⟩, [(1, true), (2, true), (3, true), (0, false)], true) := by decide +kernel
  obtain ⟨⟨s, os⟩, hpre, hx⟩ := Option.bind_eq_some_iff.1 hx
  obtain ⟨⟨s', tr⟩, hrun, hx⟩ := Option.map_eq_some_iff.1 hx
  simp only [Prod.mk.injEq] at hx
  obtain ⟨hreg, hticks, hheld⟩ := hx
  have hrun := Run.of_exec hrun
  have hduty := pwm_duty_exact s s' fourPwmTicks tr hrun
    (fun e he => of_decide_eq_true (List.all_eq_true.1 hheld e he)) (by rw [hreg]; decide) (by rw [hreg]; decide)
    (by rw [hreg, hticks]; rfl)
  rw [hreg] at hduty
  exact ⟨os, s, s', tr, Run.of_exec hpre, hrun, hticks, hduty.1 rfl rfl, hduty.2.2.2.2⟩

end CdcVp
