import CdcVp.WatchdogOutputs

/-!
# When the watchdog fires

After an accepted write of WDOG_INTCLR the watchdog is a down counter from WDOG_LOAD. `Clocked` is its state
after `n` ticks: the first time the counter would be loaded again RIS is set, the second time, with RESEN set,
the reset is asserted and the counter stops.
-/

namespace CdcVp
open FlatStore LittleEndian Runs DownCounter

namespace Watchdog
variable {w w' : Watchdog} {op : Op} {o : List Obs} {tr : List (Step Watchdog Op Obs)} {L : UInt32}
variable {resets : Bool} {n : Nat}

/-- The step is a write, to any register. -/
def IsWrite (e : Step Watchdog Op Obs) : Prop := ∃ t, e.input = .transport t ∧ t.command = .write

instance : DecidablePred IsWrite := fun e =>
  match h : e.input with
  | .transport t => decidable_of_iff (t.command = .write) (by simp [IsWrite, h])
  | .counterThread | .driveOutputs | .delta | .advance _ => isFalse (by simp [IsWrite, h])

theorem ris_asserted (w : Watchdog) : { w with ris := risAsserted }.Ris := by
  show risAsserted &&& risAsserted ≠ 0
  decide

/-- A tick with INTEN set and no reset. -/
theorem tick_of_enabled (inten : w.interruptEnabled = true) (reset : w.resetAsserted = false) :
    w.tick = if w.counter = 0 then w.handleTimeout else { w with counter := w.counter - 1 } := by
  refine if_neg ?_
  rw [inten, reset]
  simp

theorem tick_of_reset (reset : w.resetAsserted = true) : w.tick = w := if_pos (.inr reset)

theorem machine_tick (woken : w.counterThread = .woken) : machine w .counterThread =
    some ({ w.tick with counterThread := .waiting (w.now + w.tickPeriod) }, []) := by
  simp only [machine, woken]

/-- `n` ticks after the counter was loaded with `L` and RIS cleared. -/
structure Clocked (L : UInt32) (resets : Bool) (n : Nat) (w : Watchdog) : Prop where
  load : w.load = L
  inten : w.interruptEnabled = true
  resen : w.resetEnabled = resets
  ris : w.Ris ↔ 1 ≤ crossings L.toNat L.toNat n
  reset : w.resetAsserted = true ↔ resets = true ∧ 2 ≤ crossings L.toNat L.toNat n
  counter : w.counter.toNat =
    if resets = true ∧ 2 ≤ crossings L.toNat L.toNat n then 0 else after L.toNat L.toNat n

namespace Clocked

/-- A change of what neither the registers nor the counter depend on. -/
theorem congr (h : Clocked L resets n w) (hl : w'.load = w.load) (hc : w'.control = w.control)
    (hr : w'.ris = w.ris) (hreset : w'.resetAsserted = w.resetAsserted) (hv : w'.counter = w.counter) :
    Clocked L resets n w' := by
  refine ⟨?_, ?_, ?_, ?_, ?_, ?_⟩
  · rw [hl, h.load]
  · rw [interruptEnabled, hc]
    exact h.inten
  · rw [resetEnabled, hc]
    exact h.resen
  · rw [Ris, hr]
    exact h.ris
  · rw [hreset]
    exact h.reset
  · rw [hv]
    exact h.counter

theorem of_clearInterrupt (inten : w.interruptEnabled = true) (reset : w.resetAsserted = false) :
    Clocked w.load w.resetEnabled 0 w.clearInterrupt := by
  have h0 : crossings w.load.toNat w.load.toNat 0 = 0 := crossings_zero _ _
  refine ⟨rfl, inten, rfl, ?_, ?_, ?_⟩
  · rw [h0]
    exact iff_of_false (not_ris_clearInterrupt w) (by decide)
  · rw [h0]
    refine iff_of_false ?_ fun h => absurd h.2 (by decide)
    show ¬ w.resetAsserted = true
    rw [reset]
    decide
  · rw [h0, if_neg fun h => absurd h.2 (by decide), after_zero]
    rfl

/-- A tick after the reset. -/
theorem stopped (h : Clocked L resets n w) (hreset : w.resetAsserted = true) : Clocked L resets (n + 1) w := by
  obtain ⟨hresen, htwo⟩ := h.reset.1 hreset
  have hmore : 2 ≤ crossings L.toNat L.toNat (n + 1) := by
    rw [crossings_succ]
    omega
  refine ⟨h.load, h.inten, h.resen, ?_, ?_, ?_⟩
  · exact iff_of_true (h.ris.2 (by omega)) (by omega)
  · exact iff_of_true hreset ⟨hresen, hmore⟩
  · rw [h.counter, if_pos ⟨hresen, htwo⟩, if_pos ⟨hresen, hmore⟩]

/-- The counter before the reset. -/
theorem counting (h : Clocked L resets n w) (hreset : w.resetAsserted = false) :
    w.counter.toNat = after L.toNat L.toNat n :=
  h.counter.trans (if_neg fun hr => absurd (h.reset.2 hr) (ne_true_of_eq_false hreset))

/-- A tick with the counter above zero. -/
theorem count (h : Clocked L resets n w) (hreset : w.resetAsserted = false) (hne : w.counter ≠ 0) :
    Clocked L resets (n + 1) { w with counter := w.counter - 1 } := by
  have hv := h.counting hreset
  have hdec := toNat_pred hne
  have hpos : after L.toNat L.toNat n ≠ 0 := by omega
  have hsame : crossings L.toNat L.toNat (n + 1) = crossings L.toNat L.toNat n := by
    rw [crossings_succ, if_neg hpos, Nat.add_zero]
  refine ⟨h.load, h.inten, h.resen, ?_, ?_, ?_⟩
  · rw [hsame]
    exact h.ris
  · rw [hsame]
    exact h.reset
  · rw [hsame, if_neg fun hr => absurd (h.reset.2 hr) (ne_true_of_eq_false hreset), after_succ, next_of_ne hpos,
      ← hv]
    show (w.counter - 1).toNat = _
    omega

/-- A tick with the counter at zero: the first timeout, one with RESEN off, or the reset. -/
theorem timeout (h : Clocked L resets n w) (hreset : w.resetAsserted = false) (hzero : w.counter = 0) :
    Clocked L resets (n + 1) w.handleTimeout := by
  have hv := h.counting hreset
  rw [hzero, UInt32.toNat_zero] at hv
  have hsucc : crossings L.toNat L.toNat (n + 1) = crossings L.toNat L.toNat n + 1 := by
    rw [crossings_succ, if_pos hv.symm]
  have hload : after L.toNat L.toNat (n + 1) = w.load.toNat := by
    rw [after_succ, ← hv, h.load]
    rfl
  have hno : ¬ (resets = true ∧ 2 ≤ crossings L.toNat L.toNat n) := fun hr =>
    absurd (h.reset.2 hr) (ne_true_of_eq_false hreset)
  unfold handleTimeout
  split
  · rename_i hris
    have hone := h.ris.1 hris
    split
    · rename_i hresen
      have hr : resets = true := h.resen.symm.trans hresen
      refine ⟨h.load, h.inten, h.resen, ?_, ?_, ?_⟩
      · exact iff_of_true hris (by omega)
      · exact iff_of_true rfl ⟨hr, by omega⟩
      · rw [if_pos ⟨hr, by omega⟩]
        show w.counter.toNat = 0
        rw [hzero]
        rfl
    · rename_i hresen
      have hr : ¬ resets = true := fun hr => hresen (h.resen.trans hr)
      refine ⟨h.load, h.inten, h.resen, ?_, ?_, ?_⟩
      · exact iff_of_true hris (by omega)
      · exact iff_of_false (ne_true_of_eq_false hreset) fun hc => hr hc.1
      · rw [if_neg fun hc => hr hc.1, hload]
        rfl
  · rename_i hris
    have hnone : ¬ 1 ≤ crossings L.toNat L.toNat n := fun h1 => hris (h.ris.2 h1)
    refine ⟨h.load, h.inten, h.resen, ?_, ?_, ?_⟩
    · exact iff_of_true (ris_asserted w) (by omega)
    · exact iff_of_false (ne_true_of_eq_false hreset) fun hc => by omega
    · rw [if_neg fun hc => by omega, hload]
      rfl

theorem tick (h : Clocked L resets n w) : Clocked L resets (n + 1) w.tick := by
  cases hreset : w.resetAsserted with
  | true =>
    rw [tick_of_reset hreset]
    exact h.stopped hreset
  | false =>
    rw [tick_of_enabled h.inten hreset]
    split
    · rename_i hzero
      exact h.timeout hreset hzero
    · rename_i hne
      exact h.count hreset hne

theorem step (hm : machine w op = some (w', o)) (hno : ¬ IsWrite ⟨w, op, w', o⟩) (h : Clocked L resets n w) :
    Clocked L resets (n + if IsTick ⟨w, op, w', o⟩ then 1 else 0) w' := by
  cases op with
  | transport t =>
    rw [if_neg (by simp [IsTick]), Nat.add_zero]
    obtain ⟨⟨a, t', o'⟩, hb, heq⟩ := Option.map_eq_some_iff.1 hm
    cases heq
    rcases bTransport_not_write (fun hc => hno ⟨t, rfl, hc⟩) hb with ⟨rfl, -⟩ | ⟨rfl, -⟩
    · exact h
    · exact h.congr rfl rfl rfl rfl rfl
  | counterThread =>
    by_cases hw : w.counterThread = .woken
    · rw [if_pos ⟨rfl, hw⟩]
      cases (machine_tick hw).symm.trans hm
      exact h.tick.congr rfl rfl rfl rfl rfl
    · rw [if_neg fun ht => hw ht.2, Nat.add_zero]
      cases machine_move hm with
      | start => exact h.congr rfl rfl rfl rfl rfl
      | tick woken => exact absurd woken hw
  | driveOutputs | delta | advance =>
    rw [if_neg (by simp [IsTick]), Nat.add_zero]
    cases machine_move hm
    exact h.congr rfl rfl rfl rfl rfl

theorem run {is : List Op} (hrun : Run (traced machine) w is tr w') (hno : ∀ e ∈ tr, ¬ IsWrite e)
    (h : Clocked L resets 0 w) : Clocked L resets (ticks tr) w' := by
  refine hrun.trace (fun tr a => (∀ e ∈ tr, ¬ IsWrite e) → Clocked L resets (ticks tr) a) (fun _ => h) ?_ hno
  intro tr a i b o hi ih hno
  rw [ticks_snoc]
  exact (ih fun e he => hno e (List.mem_append_left _ he)).step hi (hno _ (by simp))

end Clocked

end Watchdog

open Watchdog

/-- Watchdog timing. An unlocked write of WDOG_INTCLR with INTEN set, the reset not asserted and WDOG_LOAD at
`L` goes through. `k` ticks after it, nothing being written since: RIS and the interrupt level are set iff
`k ≥ L + 1`. With RESEN set the reset is asserted iff `k ≥ 2 (L + 1)`, and the counter is `L - k mod (L + 1)`
before that and 0 from then on; with RESEN clear the reset is not asserted and the counter is
`L - k mod (L + 1)`. The settled signals are the levels. -/
theorem watchdog_timing_exact (period : Nat) (is : List Op) (os : List Obs) (w₁ : Watchdog) (t : ApbPayload)
    (L : UInt32) (hrun : Run machine (new period) is os w₁) (hclear : WritesIntClr t)
    (hbuffer : ∀ bs, t.dataPtr = some bs → 4 ≤ bs.length) (unlocked : w₁.locked = false)
    (inten : w₁.interruptEnabled = true) (reset : w₁.resetAsserted = false) (hload : w₁.load = L) :
    ∃ w₀ o, machine w₁ (.transport t) = some (w₀, o) ∧
      ∀ (is' : List Op) (tr : List (Step Watchdog Op Obs)) (w : Watchdog), Run (traced machine) w₀ is' tr w →
        (∀ e ∈ tr, ¬ IsWrite e) →
        (w.Ris ↔ L.toNat + 1 ≤ ticks tr) ∧ (w.irqLevel = true ↔ L.toNat + 1 ≤ ticks tr) ∧
        (w₁.resetEnabled = true → (w.resetAsserted = true ↔ 2 * (L.toNat + 1) ≤ ticks tr) ∧
          w.counter.toNat = if ticks tr < 2 * (L.toNat + 1) then L.toNat - ticks tr % (L.toNat + 1) else 0) ∧
        (w₁.resetEnabled = false → w.resetAsserted = false ∧
          w.counter.toNat = L.toNat - ticks tr % (L.toNat + 1)) ∧
        (w.Settled → (w.irq = true ↔ L.toNat + 1 ≤ ticks tr) ∧ w.resetO = w.resetAsserted) := by
  subst hload
  obtain ⟨hc, haddr, hword⟩ := hclear
  obtain ⟨data, hdata⟩ := Option.ne_none_iff_exists'.1 hword
  have hstep := machine_write hc hdata hbuffer (w := w₁)
  rw [haddr, writeReg_intClr unlocked] at hstep
  refine ⟨_, _, hstep, fun is' tr w hafter hno => ?_⟩
  have hk := (Clocked.of_clearInterrupt inten reset).run hafter hno
  have hall := (hrun.snoc hstep).append hafter.of_traced
  have hlevel := LevelInv.of_run hall
  have hout := OutInv.of_run hall
  have hris : w.Ris ↔ w₁.load.toNat + 1 ≤ ticks tr := by
    rw [hk.ris, le_crossings_self, Nat.one_mul]
  have hirq : w.irqLevel = true ↔ w₁.load.toNat + 1 ≤ ticks tr := by
    rw [hlevel.irq, hlevel.mis, if_pos hk.inten, ← hris]
    exact hlevel.ris_iff.symm
  have hcounter := hk.counter
  have hreset := hk.reset
  simp only [le_crossings_self, after_self] at hcounter hreset
  refine ⟨hris, hirq, fun hr => ?_, fun hr => ?_, fun hs => ?_⟩
  · rw [hr] at hreset hcounter
    refine ⟨hreset.trans (and_iff_right rfl), ?_⟩
    by_cases h2 : 2 * (w₁.load.toNat + 1) ≤ ticks tr
    · rw [hcounter, if_pos ⟨rfl, h2⟩, if_neg (Nat.not_lt.2 h2)]
    · rw [hcounter, if_neg fun hc => h2 hc.2, if_pos (Nat.lt_of_not_le h2)]
  · rw [hr] at hreset hcounter
    refine ⟨Bool.eq_false_iff.2 fun ht => Bool.false_ne_true (hreset.1 ht).1, ?_⟩
    rw [hcounter, if_neg fun hc => Bool.false_ne_true hc.1]
  · obtain ⟨h1, h2⟩ := hout.settled hs
    exact ⟨h1 ▸ hirq, h2.trans hout.level⟩

/-- The watchdog armed with WDOG_LOAD at 1 and kicked, then four ticks: the fourth asserts the reset. -/
theorem watchdog_timing_exact_fourTicks : ∃ (os o : List Obs) (w₁ w₀ w : Watchdog)
    (tr : List (Step Watchdog Op Obs)),
    Run machine (new 10) wdogArmed os w₁ ∧ machine w₁ (wdogWrite 0x00C 0) = some (w₀, o) ∧
      Run (traced machine) w₀ fourTicks tr w ∧ ticks tr = 4 ∧ w.Ris ∧ w.resetAsserted = true ∧
      w.counter.toNat = 0 := by
  have hx : ((exec machine (new 10) wdogArmed).bind fun p =>
      (machine p.1 (wdogWrite 0x00C 0)).bind fun q => (exec (traced machine) q.1 fourTicks).map fun r =>
        ((p.1.load, p.1.locked), (p.1.interruptEnabled, p.1.resetAsserted, p.1.resetEnabled),
          r.2.all fun e => ¬ IsWrite e, ticks r.2)) =
      some ((1, false), (true, false, true), true, 4) := by decide +kernel
  obtain ⟨⟨w₁, os⟩, hpre, hx⟩ := Option.bind_eq_some_iff.1 hx
  obtain ⟨⟨w₀, o⟩, hkick, hx⟩ := Option.bind_eq_some_iff.1 hx
  obtain ⟨⟨w, tr⟩, hpost, hx⟩ := Option.map_eq_some_iff.1 hx
  simp only [Prod.mk.injEq] at hx
  obtain ⟨⟨hload, unlocked⟩, ⟨inten, reset, resen⟩, hno, hticks⟩ := hx
  have hpre := Run.of_exec hpre
  have hpost := Run.of_exec hpost
  have hbuffer : ∀ bs, (wdogPayload 0x00C 0).dataPtr = some bs → 4 ≤ bs.length := by
    rintro _ ⟨⟩
    decide
  obtain ⟨w₀', o', hstep, htiming⟩ := watchdog_timing_exact 10 wdogArmed os w₁ (wdogPayload 0x00C 0) 1 hpre
    ⟨rfl, by decide, by decide⟩ hbuffer unlocked inten reset hload
  obtain ⟨rfl, rfl⟩ := Prod.mk.inj (Option.some.inj (hkick.symm.trans hstep))
  obtain ⟨hris, -, hreset, -⟩ := htiming fourTicks tr w hpost
    fun e he => of_decide_eq_true (List.all_eq_true.1 hno e he)
  obtain ⟨hfired, hcounter⟩ := hreset resen
  rw [hticks] at hris hfired hcounter
  exact ⟨os, o, w₁, w₀, w, tr, hpre, hkick, hpost, hticks, hris.2 (by decide), hfired.2 (by decide), hcounter⟩

end CdcVp
