import CdcVp.PwmTicks
import CdcVp.Residues

/-!
# The counter of the PWM

PERIOD is not checked: zero makes the tick divide by zero, and above 65536 the remainder does not always fit the
16-bit counter. `TickExact` says that the next tick is defined and computes the exact remainder, `Covers` that a
window of one period has every value once.
-/

namespace CdcVp
open FlatStore LittleEndian Runs Residues

namespace Pwm
variable {s s' : Pwm} {tr : List (Step Pwm Op Obs)}

/-- The divisor is not zero, and the new counter is the remainder of the exact integers. -/
def TickExact (s : Pwm) : Prop :=
  s.reg.period ≠ 0 ∧ ∃ s' o, machine s .pwmThread = some (s', o) ∧
    s'.counter.toNat = (s.counter.toNat + 1) % s.reg.period.toNat

/-- The counter takes each value below `P` once. -/
def Covers (P : Nat) (tr : List (Step Pwm Op Obs)) : Prop :=
  ∀ v < P, (ticks tr).countP (fun t => t.1.toNat = v) = 1

theorem tickExact_iff (h : s.TickDue) : s.TickExact ↔
    s.reg.period ≠ 0 ∧ (s.reg.period.toNat ≤ 65536 ∨ s.counter ≠ 65535) := by
  refine and_congr_right fun hp => ?_
  have hm := machine_tick h.1 h.2 hp
  have hpos : 0 < s.reg.period.toNat := Nat.pos_of_ne_zero fun h0 => hp (UInt32.toNat_inj.1 h0)
  have hlt := s.counter.toNat_lt
  have hmax : s.counter ≠ 65535 ↔ s.counter.toNat ≠ 65535 := not_congr UInt16.toNat_inj.symm
  have hfits : (∃ s' o, machine s .pwmThread = some (s', o) ∧
      s'.counter.toNat = (s.counter.toNat + 1) % s.reg.period.toNat) ↔
        (s.counter.toNat + 1) % s.reg.period.toNat < 2 ^ 16 := by
    constructor
    · rintro ⟨b, o', hb, hbc⟩
      rw [← hbc]
      exact b.counter.toNat_lt
    · intro hfit
      refine ⟨_, _, hm, ?_⟩
      change (s.reg.nextCounter s.counter).toNat = _
      rw [PwmRegs.toNat_nextCounter, Nat.mod_eq_of_lt hfit]
  rw [hfits, hmax]
  rcases Nat.lt_or_ge 65536 s.reg.period.toNat with hbig | hsmall
  · rw [Nat.mod_eq_of_lt (by omega)]
    omega
  · have hmod : (s.counter.toNat + 1) % s.reg.period.toNat < s.reg.period.toNat := Nat.mod_lt _ hpos
    exact iff_of_true (by omega) (.inl hsmall)

/-- A window of one period. -/
theorem covers_iff {is : List Op} (hrun : Run (traced machine) s is tr s')
    (held : ∀ e ∈ tr, e.post.reg = s.reg) (hwindow : (ticks tr).length = s.reg.period.toNat) :
    Covers s.reg.period.toNat tr ↔ s.reg.period.toNat ≤ 65536 := by
  constructor
  · intro h
    by_contra hbig
    have hone := h 65536 (Nat.lt_of_not_le hbig)
    have hnone : (ticks tr).countP (fun t => t.1.toNat = 65536) = 0 := by
      rw [List.countP_eq_zero]
      intro t _ ht
      have := t.1.toNat_lt
      rw [decide_eq_true_eq] at ht
      omega
    rw [hnone] at hone
    cases hone
  · intro hle v hv
    have hc : s.reg.Countable := ⟨Nat.zero_lt_of_lt hv, hle⟩
    have hticks := (ticked_of_run hrun held).ticks
    rw [hwindow] at hticks
    rw [hticks, ticksFrom, List.countP_map]
    refine Eq.trans (List.countP_congr fun i _ => ?_)
      ((countP_range_add_mod (fun n => n = v) (s.counter.toNat + 1) s.reg.period.toNat).trans (countP_range_eq hv))
    simp only [Function.comp_apply, hc.counters]

end Pwm

open Pwm

/-- Where the counter of the PWM is well defined. In every reachable state in which a tick with the counter
enabled is due, the tick is defined and exact iff PERIOD is not 0 and either at most 65536 or met by a counter
below 65535; and a window of one period of ticks with the registers held has every value once iff the period
is at most 65536. -/
theorem pwm_counter_defined_iff (is : List Op) (os : List Obs) (s : Pwm) (_hrun : Run machine new is os s) :
    (s.TickDue → (s.TickExact ↔ s.reg.period ≠ 0 ∧ (s.reg.period.toNat ≤ 65536 ∨ s.counter ≠ 65535))) ∧
    ∀ (is' : List Op) (tr : List (Step Pwm Op Obs)) (s' : Pwm), Run (traced machine) s is' tr s' →
      (∀ e ∈ tr, e.post.reg = s.reg) → (ticks tr).length = s.reg.period.toNat →
      (Covers s.reg.period.toNat tr ↔ s.reg.period.toNat ≤ 65536) :=
  ⟨tickExact_iff, fun _ _ _ h held hwindow => covers_iff h held hwindow⟩

/-- PERIOD is set, the counter enabled, and the thread woken for the first tick. -/
def firstTick (period : UInt32) : List Op :=
  [.pwmThread, pwmWrite 0x30 period, pwmWrite 0x08 0x80000000, .delta, .advance 10000]

theorem pwm_counter_defined_iff_firstTick : ∃ os s, Run machine new (firstTick 4) os s ∧ s.TickExact := by
  have hx : (exec machine new (firstTick 4)).map (fun r => (decide r.1.TickDue, r.1.reg.period)) =
      some (true, 4) := by decide +kernel
  obtain ⟨⟨s, os⟩, he, hs⟩ := Option.map_eq_some_iff.1 hx
  obtain ⟨hdue, hp⟩ := Prod.mk.injEq .. ▸ hs
  have hrun := Run.of_exec he
  refine ⟨os, s, hrun, ((pwm_counter_defined_iff _ os s hrun).1 (of_decide_eq_true hdue)).2 ?_⟩
  change s.reg.period = 4 at hp
  rw [hp]
  exact ⟨by decide, .inl (by decide)⟩

/-- PERIOD 0 is answered OK, and the first tick with the counter enabled divides by it. -/
theorem not_tickExact_periodZero : ¬ ∀ (is : List Op) (os : List Obs) (s : Pwm), Run machine new is os s →
    s.TickDue → s.TickExact := by
  intro h
  have hx : (exec machine new (firstTick 0)).map (fun r => (decide r.1.TickDue, r.1.reg.period)) =
      some (true, 0) := by decide +kernel
  obtain ⟨⟨s, os⟩, he, hs⟩ := Option.map_eq_some_iff.1 hx
  obtain ⟨hdue, hp⟩ := Prod.mk.injEq .. ▸ hs
  exact (h _ os s (Run.of_exec he) (of_decide_eq_true hdue)).1 hp

end CdcVp
