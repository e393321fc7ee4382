import CdcVp.PwmTicks
import CdcVp.Residues

/-!
# The phase delay of the PWM

The position is computed modulo 2^32 before the remainder is taken. `phase` is the exact residue; the two agree
unless the delay exceeds counter and period together (`Wraps`) and the period does not divide 2^32.
-/

namespace CdcVp
open FlatStore LittleEndian Runs Residues

namespace PwmRegs
variable {r q : PwmRegs} {c : UInt16} {n : Nat} {P F F' : UInt32}

/-- The position in the period in exact integers. -/
def phase (r : PwmRegs) (c : UInt16) : ℤ := ((c.toNat : ℤ) - r.phaseDelay.toNat) % r.period.toNat

/-- The subtraction of the delay goes below zero. -/
def Wraps (r : PwmRegs) (c : UInt16) : Prop := r.period.toNat + c.toNat < r.phaseDelay.toNat

instance (r : PwmRegs) (c : UInt16) : Decidable (r.Wraps c) := inferInstanceAs (Decidable (_ < _))

/-- What tick `n` of a run from counter `c` writes to `pwm_out`. -/
def waveform (r : PwmRegs) (c : UInt16) (n : Nat) : Bool := r.level (r.counters c (n + 1))

theorem Countable.shifted_cast (h : r.Countable) (c : UInt16) : ((r.shifted c).toNat : ℤ) =
    ((c.toNat : ℤ) - r.phaseDelay.toNat + if r.Wraps c then 2 ^ 32 else 0) % r.period.toNat := by
  have hc := c.toNat_lt
  have hF := r.phaseDelay.toNat_lt
  have hp := h.2
  by_cases hw : r.Wraps c
  · have hsub : c.toNat + r.period.toNat + (2 ^ 32 - r.phaseDelay.toNat) < 2 ^ 32 := by
      unfold Wraps at hw
      omega
    have hlt : (c.toNat + r.period.toNat + (2 ^ 32 - r.phaseDelay.toNat)) % r.period.toNat < r.period.toNat :=
      Nat.mod_lt _ h.1
    rw [toNat_shifted, Nat.mod_eq_of_lt hsub, Nat.mod_eq_of_lt (hlt.trans_le hp), if_pos hw, Int.natCast_emod,
      Nat.cast_add, Nat.cast_add, Nat.cast_sub hF.le, add_right_comm, Int.add_emod_right]
    congr 1
    push_cast
    ring
  · have hle := Nat.le_of_not_lt hw
    rw [h.shifted (by omega), if_neg hw, Int.natCast_emod, Nat.cast_sub (by omega), Nat.cast_add,
      add_sub_right_comm, Int.add_emod_right, add_zero]

theorem Countable.shifted_eq_phase_iff (h : r.Countable) (c : UInt16) :
    ((r.shifted c).toNat : ℤ) = r.phase c ↔ ¬ r.Wraps c ∨ r.period.toNat ∣ 2 ^ 32 := by
  rw [h.shifted_cast, phase, add_emod_eq_iff]
  by_cases hw : r.Wraps c
  · rw [if_pos hw, or_iff_right (not_not_intro hw)]
    exact_mod_cast Iff.rfl
  · rw [if_neg hw]
    exact iff_of_true (dvd_zero _) (.inl hw)

theorem counters_congr (h : r.period = q.period) (c : UInt16) (n : Nat) : r.counters c n = q.counters c n := by
  induction n with
  | zero => rfl
  | succ n ih => rw [counters, counters, ih, nextCounter, nextCounter, h]

theorem shifted_congr (hP : r.period = q.period) (hF : r.phaseDelay = q.phaseDelay) (c : UInt16) :
    r.shifted c = q.shifted c := by
  rw [shifted, shifted, hP, hF]

theorem level_congr (hen : r.pwmEn = q.pwmEn) (hi : r.invert = q.invert) (hD : r.dutyCycle = q.dutyCycle)
    {c c' : UInt16} (hs : (r.shifted c).toNat = (q.shifted c').toNat) : r.level c = q.level c' := by
  rw [level, level, pwm, pwm, pwmEnabled, pwmEnabled, inverted, inverted, hen, hi, hD, UInt16.toNat_inj.1 hs]

/-- The counter of the delayed waveform, `F` ticks on, is at the position of the other. -/
theorem Countable.phase_counters (h : r.Countable) (c : UInt16) (n : Nat) :
    r.phase (r.counters c (n + r.phaseDelay.toNat + 1)) = (r.counters c (n + 1)).toNat := by
  rw [phase, h.counters, h.counters, Int.natCast_emod, Int.natCast_emod, Int.emod_sub_emod]
  congr 1
  push_cast
  ring

theorem Countable.shifted_zero (h : r.Countable) (h0 : r.phaseDelay = 0) (hc : c.toNat < r.period.toNat) :
    (r.shifted c).toNat = c.toNat := by
  have hF : r.phaseDelay.toNat = 0 := by rw [h0]; rfl
  rw [h.shifted (hF ▸ Nat.zero_le _), hF, Nat.sub_zero, Nat.add_mod_right, Nat.mod_eq_of_lt hc]

/-- Two positions that no duty cycle tells apart. -/
theorem eq_of_duty {p q : Nat} (hp : p < 2 ^ 16) (hq : q < 2 ^ 16)
    (h : ∀ D : UInt32, p < D.toNat ↔ q < D.toNat) : p = q := by
  have hone : ∀ n < 2 ^ 16, (UInt32.ofNat (n + 1)).toNat = n + 1 := fun n hn =>
    UInt32.toNat_ofNat_of_lt' (Nat.lt_of_le_of_lt hn (by decide))
  have hqp := (h (UInt32.ofNat (p + 1))).1 (by rw [hone _ hp]; exact Nat.lt_succ_self _)
  have hpq := (h (UInt32.ofNat (q + 1))).2 (by rw [hone _ hq]; exact Nat.lt_succ_self _)
  rw [hone _ hp] at hqp
  rw [hone _ hq] at hpq
  omega

theorem Countable.exists_phase (h : r.Countable) (c : UInt16) : ∃ q : Nat, q < 2 ^ 16 ∧ (q : ℤ) = r.phase c := by
  have hpos : (0 : ℤ) < r.period.toNat := Int.natCast_pos.2 h.1
  have hlt : r.phase c < r.period.toNat := Int.emod_lt_of_pos _ hpos
  obtain ⟨q, hq⟩ := Int.eq_ofNat_of_zero_le (Int.emod_nonneg (c.toNat - r.phaseDelay.toNat) hpos.ne')
  have hq : r.phase c = q := hq
  rw [hq, Nat.cast_lt] at hlt
  exact ⟨q, hlt.trans_le h.2, hq.symm⟩

/-- The registers of a PWM that counts, enabled and not inverted. -/
def counting (P F D : UInt32) : PwmRegs := ⟨0x80000000, 1, 0, F, D, P⟩

theorem counterEnable_counting (P F D : UInt32) : (counting P F D).counterEnable = true :=
  decide_eq_true (show (0x80000000 : UInt32) >>> 31 &&& 1 ≠ 0 by decide)

theorem pwmEnabled_counting (P F D : UInt32) : (counting P F D).pwmEnabled = true :=
  decide_eq_true (show (1 : UInt32) &&& 0x1 ≠ 0 by decide)

theorem inverted_counting (P F D : UInt32) : (counting P F D).inverted = false :=
  decide_eq_false (not_not_intro (show (0 : UInt32) &&& 0x1 = 0 by decide))

theorem counters_counting (P F D : UInt32) (c : UInt16) (n : Nat) :
    (counting P F D).counters c n = (counting P 0 0).counters c n :=
  counters_congr (q := counting P 0 0) (show P = P from rfl) c n

theorem counters_withDelay (r : PwmRegs) (F : UInt32) (c : UInt16) (n : Nat) :
    { r with phaseDelay := F }.counters c n = (counting r.period 0 0).counters c n :=
  counters_congr (r := { r with phaseDelay := F }) (q := counting r.period 0 0) rfl c n

theorem shifted_withDelay (r : PwmRegs) (F : UInt32) (c : UInt16) :
    { r with phaseDelay := F }.shifted c = (counting r.period F 0).shifted c :=
  shifted_congr (r := { r with phaseDelay := F }) (q := counting r.period F 0) rfl rfl c

theorem level_counting (P F D : UInt32) (c : UInt16) :
    (counting P F D).level c = true ↔ ((counting P F 0).shifted c).toNat < D.toNat := by
  rw [level, inverted_counting, if_neg Bool.false_ne_true, pwm_iff]
  exact and_iff_right (pwmEnabled_counting P F D)

theorem Countable.exists_pred (h : r.Countable) (hc : c.toNat < r.period.toNat) : ∃ b, r.nextCounter b = c := by
  have hb : (c.toNat + r.period.toNat - 1) % r.period.toNat < r.period.toNat := Nat.mod_lt _ h.1
  have hpos := h.1
  refine ⟨UInt16.ofNat ((c.toNat + r.period.toNat - 1) % r.period.toNat), UInt16.toNat_inj.1 ?_⟩
  rw [h.nextCounter, UInt16.toNat_ofNat_of_lt' (hb.trans_le h.2), Nat.mod_add_mod,
    Nat.sub_add_cancel (by omega), Nat.add_mod_right, Nat.mod_eq_of_lt hc]

/-- A delay that is a multiple of the period longer or shorter. -/
theorem shifted_eq_iff (h : r.Countable) (hP : q.period = r.period)
    (hF : r.phaseDelay.toNat ≡ q.phaseDelay.toNat [MOD r.period.toNat]) (c : UInt16) :
    r.shifted c = q.shifted c ↔ (r.Wraps c ↔ q.Wraps c) ∨ r.period.toNat ∣ 2 ^ 32 := by
  have h' : q.Countable := by rwa [Countable, hP]
  have hd : (r.period.toNat : ℤ) ∣ r.phaseDelay.toNat - q.phaseDelay.toNat := Nat.modEq_iff_dvd.1 hF.symm
  have hcast : (r.period.toNat : ℤ) ∣ 4294967296 ↔ r.period.toNat ∣ 4294967296 := by exact_mod_cast Iff.rfl
  have hdiff : ∀ a a' : ℤ, (c.toNat - r.phaseDelay.toNat + a) % r.period.toNat =
      (c.toNat - q.phaseDelay.toNat + a') % r.period.toNat ↔ (r.period.toNat : ℤ) ∣ a' - a := by
    intro a a'
    have hsum : (c.toNat - q.phaseDelay.toNat + a' : ℤ) =
        c.toNat - r.phaseDelay.toNat + a + (r.phaseDelay.toNat - q.phaseDelay.toNat + (a' - a)) := by ring
    rw [hsum, eq_comm, add_emod_eq_iff, Int.dvd_add_right hd]
  rw [← UInt16.toNat_inj, ← Int.natCast_inj, h.shifted_cast, h'.shifted_cast, hP, hdiff]
  by_cases hw : r.Wraps c <;> by_cases hw' : q.Wraps c
  · simp [hw, hw']
  · simp [hw, hw', hcast]
  · simp [hw, hw', hcast]
  · simp [hw, hw']

end PwmRegs

namespace Pwm
open PwmRegs
variable {s s' : Pwm} {o : List Obs} {c : UInt16} {P F F' : UInt32}

/-- In a reachable state a tick to counter value `c` drives `pwm_out`, before INVERT, by the exact position. -/
def OutputExact (P F : UInt32) (c : UInt16) : Prop :=
  ∀ is os s s' o, Run machine new is os s → s.TickDue → machine s .pwmThread = some (s', o) → s'.counter = c →
    s.reg.period = P → s.reg.phaseDelay = F →
    ((s'.pwmOutNext ^^ s.reg.inverted) = true ↔ s.reg.pwmEnabled = true ∧ s.reg.phase c < s.reg.dutyCycle.toNat)

/-- The waveform with delay `F` is the waveform without, `F` ticks later. -/
def DelayedBy (P F : UInt32) : Prop :=
  ∀ (r : PwmRegs) (c : UInt16) (n : Nat), r.period = P →
    { r with phaseDelay := F }.waveform c (n + F.toNat) = { r with phaseDelay := 0 }.waveform c n

/-- The two delays give the same waveform. -/
def SameWaveform (P F F' : UInt32) : Prop :=
  ∀ (r : PwmRegs) (c : UInt16) (n : Nat), r.period = P →
    { r with phaseDelay := F }.waveform c n = { r with phaseDelay := F' }.waveform c n

theorem pwmOutNext_of_tick (hdue : s.TickDue) (h : machine s .pwmThread = some (s', o)) :
    s'.pwmOutNext = s.reg.level s'.counter := by
  obtain ⟨woken, on⟩ := hdue
  cases machine_move h with
  | tick => rfl
  | start hs => cases hs.symm.trans woken
  | off _ hoff => cases hoff.symm.trans on

/-- A tick to each counter value is reached, with each duty cycle. -/
theorem counting_tick (h : (counting P F 0).Countable) (hc : c.toNat < P.toNat) (D : UInt32) : ∃ is os s s',
    Run machine new is os s ∧ s.TickDue ∧ (∃ o, machine s .pwmThread = some (s', o)) ∧ s'.counter = c ∧
      s.reg = counting P F D := by
  have hpos : 1 ≤ P.toNat := h.1
  have hp : (counting P F D).period ≠ 0 := by
    intro h0
    rw [show P = 0 from h0] at hpos
    cases hpos
  obtain ⟨is, os, s, hrun, woken, hreg, hcount⟩ := reaches_counter (counterEnable_counting P F D) hp
    (c.toNat + P.toNat - 1)
  have hnext : (counting P F D).nextCounter s.counter = c := by
    rw [hcount]
    have hlast := PwmRegs.Countable.counters (r := counting P F D) h 0 (c.toNat + P.toNat - 1)
    rw [UInt16.toNat_zero, show 0 + 1 + (c.toNat + P.toNat - 1) = c.toNat + P.toNat by omega] at hlast
    exact UInt16.toNat_inj.1 (hlast.trans ((Nat.add_mod_right _ _).trans (Nat.mod_eq_of_lt hc)))
  have on : s.reg.counterEnable = true := by
    rw [hreg]
    exact counterEnable_counting P F D
  refine ⟨is, os, s, _, hrun, ⟨woken, on⟩, ⟨_, machine_tick woken on (by rwa [hreg])⟩, ?_, hreg⟩
  rw [hreg]
  exact hnext

/-- The condition at counter value `c`. -/
theorem shifted_counting_iff (h : (counting P F 0).Countable) (c : UInt16) :
    (((counting P F 0).shifted c).toNat : ℤ) = (counting P F 0).phase c ↔
      F.toNat ≤ P.toNat + c.toNat ∨ P.toNat ∣ 2 ^ 32 := by
  rw [h.shifted_eq_phase_iff, Wraps, Nat.not_lt]
  rfl

theorem outputExact_iff (h : (counting P F 0).Countable) (hc : c.toNat < P.toNat) :
    OutputExact P F c ↔ F.toNat ≤ P.toNat + c.toNat ∨ P.toNat ∣ 2 ^ 32 := by
  rw [← shifted_counting_iff h]
  constructor
  · intro hex
    obtain ⟨q, hlt, hq⟩ := h.exists_phase c
    rw [← hq, Nat.cast_inj]
    refine eq_of_duty (UInt16.toNat_lt _) hlt fun D => ?_
    obtain ⟨is, os, s, s', hrun, hdue, ⟨o, ht⟩, hcount, hs⟩ := counting_tick h hc D
    have hout := hex is os s s' o hrun hdue ht hcount (by rw [hs]; rfl) (by rw [hs]; rfl)
    have hphase : (counting P F D).phase c = q := hq.symm
    rw [pwmOutNext_of_tick hdue ht, hcount, hs, inverted_counting, Bool.xor_false, level_counting, hphase,
      and_iff_right (pwmEnabled_counting P F D), Nat.cast_lt] at hout
    exact hout
  · rintro h is os s s' o - hdue htick rfl rfl rfl
    have hlevel : (s.reg.level s'.counter ^^ s.reg.inverted) = s.reg.pwm s'.counter := by
      rw [level]
      cases s.reg.inverted <;> simp
    have hpos : ((s.reg.shifted s'.counter).toNat : ℤ) = s.reg.phase s'.counter := h
    rw [pwmOutNext_of_tick hdue htick, hlevel, pwm_iff, ← hpos, Nat.cast_lt]

theorem counters_lt (h : (counting P 0 0).Countable) (b : UInt16) (n : Nat) :
    ((counting P 0 0).counters b (n + 1)).toNat < P.toNat := by
  rw [h.counters]
  exact Nat.mod_lt _ h.1

/-- A tick at which the delayed counter is at 0. -/
theorem counters_eq_zero (h : (counting P 0 0).Countable) (m : Nat) :
    ∃ n, (counting P 0 0).counters 0 (n + m + 1) = 0 := by
  have hpos : P.toNat = P.toNat - 1 + 1 := (Nat.sub_add_cancel h.1).symm
  have hsum : 0 + 1 + ((1 + m) * (P.toNat - 1) + m) = (1 + m) * P.toNat := by
    generalize P.toNat - 1 = p at hpos
    rw [hpos]
    ring
  refine ⟨(1 + m) * (P.toNat - 1), UInt16.toNat_inj.1 ((h.counters 0 _).trans ?_)⟩
  rw [UInt16.toNat_zero, hsum]
  exact Nat.mul_mod_left _ _

theorem delayedBy_iff (h : (counting P F 0).Countable) :
    DelayedBy P F ↔ F.toNat ≤ P.toNat ∨ P.toNat ∣ 2 ^ 32 := by
  have h0 : (counting P 0 0).Countable := h
  have hphase := h.phase_counters
  simp only [counters_counting] at hphase
  constructor
  · intro hd
    -- at counter value 0 there is the least room for the delay
    obtain ⟨n, hn⟩ := counters_eq_zero h0 F.toNat
    have heq : ((counting P F 0).shifted 0).toNat = ((counting P 0 0).counters 0 (n + 1)).toNat := by
      refine eq_of_duty (UInt16.toNat_lt _) (UInt16.toNat_lt _) fun D => ?_
      have hw : (counting P F D).waveform 0 (n + F.toNat) = (counting P 0 D).waveform 0 n :=
        hd (counting P 0 D) 0 n rfl
      rwa [waveform, waveform, counters_counting P F D, counters_counting P 0 D, hn, Bool.eq_iff_iff, level_counting,
        level_counting, h0.shifted_zero rfl (counters_lt h0 0 n)] at hw
    refine (shifted_counting_iff h 0).1 ?_
    rw [heq, ← hphase 0 n]
    exact congrArg (counting P F 0).phase hn
  · rintro hF r c n rfl
    rw [waveform, waveform, counters_withDelay r F, counters_withDelay r 0]
    have hy := h0.shifted_zero rfl (counters_lt h0 c n)
    have hx := (shifted_counting_iff h ((counting r.period 0 0).counters c (n + F.toNat + 1))).2
      (hF.imp_left fun hle => hle.trans (Nat.le_add_right _ _))
    have hxy := hx.trans (hphase c n)
    rw [Nat.cast_inj, ← hy] at hxy
    refine level_congr (r := { r with phaseDelay := F }) (q := { r with phaseDelay := 0 }) rfl rfl rfl ?_
    rw [shifted_withDelay r F, shifted_withDelay r 0, hxy]

theorem sameWaveform_iff (h : (counting P F 0).Countable) (hF : F.toNat ≡ F'.toNat [MOD P.toNat]) :
    SameWaveform P F F' ↔ (∀ c : UInt16, c.toNat < P.toNat →
      (F.toNat ≤ P.toNat + c.toNat ↔ F'.toNat ≤ P.toNat + c.toNat)) ∨ P.toNat ∣ 2 ^ 32 := by
  have h0 : (counting P 0 0).Countable := h
  have hshift : ∀ c : UInt16, (counting P F 0).shifted c = (counting P F' 0).shifted c ↔
      (F.toNat ≤ P.toNat + c.toNat ↔ F'.toNat ≤ P.toNat + c.toNat) ∨ P.toNat ∣ 2 ^ 32 := by
    intro c
    rw [shifted_eq_iff (q := counting P F' 0) h rfl hF, ← not_iff_not (a := F.toNat ≤ _), Nat.not_le, Nat.not_le]
    rfl
  constructor
  · intro hs
    refine or_iff_not_imp_right.2 fun hd c hc => ((hshift c).1 ?_).resolve_right hd
    obtain ⟨b, hb⟩ := h0.exists_pred hc
    refine UInt16.toNat_inj.1 (eq_of_duty (UInt16.toNat_lt _) (UInt16.toNat_lt _) fun D => ?_)
    have hw : (counting P F D).level ((counting P 0 0).nextCounter b) =
        (counting P F' D).level ((counting P 0 0).nextCounter b) := hs (counting P 0 D) b 0 rfl
    rwa [hb, Bool.eq_iff_iff, level_counting, level_counting] at hw
  · rintro hc r c n rfl
    rw [waveform, waveform, counters_withDelay r F, counters_withDelay r F']
    have hx := (hshift _).2 (hc.imp_left fun hle => hle _ (counters_lt h0 c n))
    refine level_congr (r := { r with phaseDelay := F }) (q := { r with phaseDelay := F' }) rfl rfl rfl ?_
    rw [shifted_withDelay r F, shifted_withDelay r F', hx]

/-- The ticks of a run write the waveform. -/
theorem waveform_of_run {is : List Op} {tr : List (Step Pwm Op Obs)} (hrun : Run (traced machine) s is tr s')
    (held : ∀ e ∈ tr, e.post.reg = s.reg) :
    (ticks tr).map Prod.snd = (List.range (ticks tr).length).map (s.reg.waveform s.counter) := by
  have hticks := congrArg (List.map Prod.snd) (ticked_of_run hrun held).ticks
  rw [ticksFrom, List.map_map] at hticks
  exact hticks

end Pwm

open Pwm

/-- When the phase delay is a time shift. At counter value `c` the un-inverted output is that of the exact
residue for every duty cycle iff the delay is at most `P + c` or the period divides 2^32; the waveform is the one
without delay, `F` ticks later, iff the delay is at most `P` or the period divides 2^32; delays that differ by a
multiple of the period give the same waveform iff they wrap at the same counter values or the period divides
2^32. The waveform is what the ticks of a run write. -/
theorem pwm_phase_shift_iff (P F : UInt32) (hP : 1 ≤ P.toNat ∧ P.toNat ≤ 65536) :
    (∀ c : UInt16, c.toNat < P.toNat →
      (OutputExact P F c ↔ F.toNat ≤ P.toNat + c.toNat ∨ P.toNat ∣ 2 ^ 32)) ∧
    (DelayedBy P F ↔ F.toNat ≤ P.toNat ∨ P.toNat ∣ 2 ^ 32) ∧
    (∀ F' : UInt32, F.toNat ≡ F'.toNat [MOD P.toNat] → (SameWaveform P F F' ↔
      (∀ c : UInt16, c.toNat < P.toNat → (F.toNat ≤ P.toNat + c.toNat ↔ F'.toNat ≤ P.toNat + c.toNat)) ∨
        P.toNat ∣ 2 ^ 32)) ∧
    ∀ (s s' : Pwm) (is : List Op) (tr : List (Step Pwm Op Obs)), Run (traced machine) s is tr s' →
      (∀ e ∈ tr, e.post.reg = s.reg) →
      (ticks tr).map Prod.snd = (List.range (ticks tr).length).map (s.reg.waveform s.counter) := by
  have h : (PwmRegs.counting P F 0).Countable := hP
  refine ⟨fun c hc => outputExact_iff h hc, delayedBy_iff h, fun F' hF => sameWaveform_iff h hF, ?_⟩
  intro s s' is tr hrun held
  exact waveform_of_run hrun held

theorem pwm_phase_shift_iff_delayTwenty : DelayedBy 100 20 :=
  (pwm_phase_shift_iff 100 20 (by decide)).2.1.2 (.inl (by decide))

/-- A period of 3 with a delay of 5: at counter 1 the exact position is 2, and the output is high for a duty
cycle of 1. -/
def delayFive : List Op :=
  [.pwmThread, pwmWrite 0x30 3, pwmWrite 0x14 5, pwmWrite 0x2C 1, pwmWrite 0x0C 1, pwmWrite 0x08 0x80000000,
    .delta, .advance 10000]

theorem not_outputExact_delayFive : ¬ ∀ (is : List Op) (os : List Obs) (s s' : Pwm) (o : List Obs),
    Run machine new is os s → s.TickDue → machine s .pwmThread = some (s', o) →
    1 ≤ s.reg.period.toNat ∧ s.reg.period.toNat ≤ 65536 →
    ((s'.pwmOutNext ^^ s.reg.inverted) = true ↔
      s.reg.pwmEnabled = true ∧ s.reg.phase s'.counter < s.reg.dutyCycle.toNat) := by
  intro h
  have hx : (exec machine new delayFive).bind (fun r => (machine r.1 .pwmThread).map fun q =>
      (decide r.1.TickDue, r.1.reg, q.1.counter, q.1.pwmOutNext)) =
      some (true, ⟨0x80000000, 1, 0, 5, 1, 3⟩, 1, true) := by decide +kernel
  obtain ⟨⟨s, os⟩, he, hx⟩ := Option.bind_eq_some_iff.1 hx
  obtain ⟨⟨s', o⟩, ht, hx⟩ := Option.map_eq_some_iff.1 hx
  simp only [Prod.mk.injEq] at hx
  obtain ⟨hdue, hreg, hcount, hnext⟩ := hx
  have hiff := h _ os s s' o (Run.of_exec he) (of_decide_eq_true hdue) ht (by rw [hreg]; decide)
  rw [hreg, hcount, hnext] at hiff
  exact absurd (hiff.1 (by decide)).2 (by decide)

end CdcVp
