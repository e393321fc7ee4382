import CdcVp.WatchdogSafety

/-!
# The outputs of the watchdog against its state

`m_mis`, `m_irq_level` and `m_reset_level` are computed by `update_outputs` alone. `LevelInv`: each of the
operations that change what they are computed from calls it before it returns, so they are never stale. The
signals follow by way of `m_output_changed`, `drive_outputs` and an update phase.
-/

namespace CdcVp
open FlatStore LittleEndian Runs

namespace Watchdog
variable {w w' : Watchdog} {op : Op} {o : List Obs}

/-- The cached fields are what `update_outputs` makes of RIS and CONTROL. -/
structure LevelInv (w : Watchdog) : Prop where
  ris : w.ris = 0 ∨ w.ris = risAsserted
  mis : w.mis = if w.interruptEnabled then w.ris else 0
  irq : w.irqLevel = true ↔ w.mis ≠ 0

namespace LevelInv

theorem init (period : Nat) : LevelInv (new period) :=
  ⟨.inl rfl, (ite_self (0 : UInt32)).symm, iff_of_false Bool.false_ne_true fun h => h rfl⟩

/-- A step that leaves RIS, CONTROL and the cached fields. -/
theorem congr (h : LevelInv w) (hr : w'.ris = w.ris) (hc : w'.control = w.control) (hm : w'.mis = w.mis)
    (hi : w'.irqLevel = w.irqLevel) : LevelInv w' := by
  refine ⟨?_, ?_, ?_⟩
  · rw [hr]
    exact h.ris
  · rw [hm, hr, interruptEnabled, hc]
    exact h.mis
  · rw [hi, hm]
    exact h.irq

/-- Whatever the registers hold, `update_outputs` leaves the cached fields in order. -/
theorem updateOutputs (hr : w.ris = 0 ∨ w.ris = risAsserted) : LevelInv w.updateOutputs := by
  have hirq : ∀ m : UInt32, m = 0 ∨ m = risAsserted → (decide (m &&& risAsserted ≠ 0) = true ↔ m ≠ 0) := by
    rintro m (rfl | rfl) <;> decide
  have hmis : w.updateOutputs.mis = if w.interruptEnabled then w.ris else 0 := by
    show (if w.ris &&& risAsserted ≠ 0 ∧ w.interruptEnabled then risAsserted else 0) = _
    cases w.interruptEnabled with
    | false => simp
    | true => rcases hr with hr | hr <;> rw [hr] <;> decide
  have hbit : w.updateOutputs.mis = 0 ∨ w.updateOutputs.mis = risAsserted := by
    rw [hmis]
    split
    · exact hr
    · exact .inl rfl
  exact ⟨hr, hmis, hirq _ hbit⟩

theorem bus (h : BusMove w w' o) (hw : LevelInv w) : LevelInv w' := by
  cases h with
  | ignored => exact hw
  | lock | load => exact hw.congr rfl rfl rfl rfl
  | read => exact updateOutputs hw.ris
  | control => exact updateOutputs hw.ris
  | intClr => exact updateOutputs (.inl rfl)

theorem tick (h : TickMove w w') (hw : LevelInv w) : LevelInv w' := by
  cases h with
  | off => exact hw
  | count | again => exact hw.congr rfl rfl rfl rfl
  | first =>
    have hu : LevelInv { w with ris := risAsserted }.updateOutputs := updateOutputs (.inr rfl)
    exact hu.congr rfl rfl rfl rfl
  | reset => exact updateOutputs hw.ris

theorem step (h : Move w op w' o) (hw : LevelInv w) : LevelInv w' := by
  cases h with
  | bus t h => exact hw.bus h
  | tick woken h => exact (hw.tick h).congr rfl rfl rfl rfl
  | start | driveOutputs | delta | advance => exact hw.congr rfl rfl rfl rfl

theorem of_run {period : Nat} {is : List Op} {os : List Obs} (h : Run machine (new period) is os w) :
    LevelInv w :=
  h.inv LevelInv (init period) fun _ _ _ _ hi hw => hw.step (machine_move hi)

theorem ris_iff (h : LevelInv w) : w.Ris ↔ w.ris ≠ 0 := by
  rcases h.ris with hr | hr <;> rw [Ris, hr] <;> decide

end LevelInv

/-- The end of a delta cycle in which no notification was pending leaves the signals at the levels. -/
theorem OutInv.delta (hw : OutInv w) (h : machine w .delta = some (w', o)) (hc : w.outputChanged = false) :
    w'.irq = w'.irqLevel ∧ w'.resetO = w'.resetLevel := by
  cases machine_move h with
  | delta idle => exact hw.next hc idle.2

theorem OutInv.settled (hw : OutInv w) (hs : w.Settled) : w.irq = w.irqLevel ∧ w.resetO = w.resetLevel := by
  obtain ⟨⟨-, hready⟩, -, hc, hirq, hro⟩ := hs
  obtain ⟨h1, h2⟩ := hw.next hc hready
  exact ⟨hirq.trans h1, hro.trans h2⟩

end Watchdog

open Watchdog

/-- The outputs of the watchdog reflect its state. In every reachable state `m_mis` is RIS where INTEN is set
and 0 otherwise, `m_irq_level` says that it is not 0 and `m_reset_level` is `m_reset_asserted`. Where no
notification of `m_output_changed` is pending and `drive_outputs` is not to run, the values last written to
`irq` and `reset_o` are those levels; so are the signals from the next update phase on, and at the end of every
time step. -/
theorem watchdog_outputs_reflect (period : Nat) (is : List Op) (os : List Obs) (w : Watchdog)
    (hrun : Run machine (new period) is os w) :
    w.mis = (if w.interruptEnabled then w.ris else 0) ∧ (w.irqLevel = true ↔ w.mis ≠ 0) ∧
    w.resetLevel = w.resetAsserted ∧
    (w.outputChanged = false → w.driveOutputsReady = false →
      w.irqNext = w.irqLevel ∧ w.resetONext = w.resetLevel) ∧
    (∀ w' o, machine w .delta = some (w', o) → w.outputChanged = false →
      w'.irq = w'.irqLevel ∧ w'.resetO = w'.resetLevel) ∧
    (w.Settled → w.irq = w.irqLevel ∧ w.resetO = w.resetLevel) := by
  have hlevel := LevelInv.of_run hrun
  have hout := OutInv.of_run hrun
  exact ⟨hlevel.mis, hlevel.irq, hout.level, hout.next, fun _ _ h hc => hout.delta h hc, hout.settled⟩

/-- WDOG_LOAD at 0, INTEN set and one tick: RIS is set, and the delta cycle of the tick has ended. -/
def tickNotified : List Op :=
  [.counterThread, .driveOutputs, wdogWrite 0x000 0, wdogWrite 0x008 1, .delta, .driveOutputs, .delta,
    .advance 10, .counterThread, .delta]

theorem watchdog_outputs_reflect_tickNotified : ∃ os w, Run machine (new 10) tickNotified os w ∧
    w.interruptEnabled = true ∧ w.ris = risAsserted ∧ w.mis = (if w.interruptEnabled then w.ris else 0) := by
  have hx : (exec machine (new 10) tickNotified).map (fun r => (r.1.interruptEnabled, r.1.ris)) =
      some (true, risAsserted) := by decide +kernel
  obtain ⟨⟨w, os⟩, he, hs⟩ := Option.map_eq_some_iff.1 hx
  obtain ⟨hi, hr⟩ := Prod.mk.inj hs
  have hrun := Run.of_exec he
  exact ⟨os, w, hrun, hi, hr, (watchdog_outputs_reflect 10 tickNotified os w hrun).1⟩

/-- The notification has been delivered, so it is not pending, but `drive_outputs` has yet to run: `irq` is
still low while `m_irq_level` is high. -/
theorem not_outputsReflect_tickNotified : ¬ ∀ (period : Nat) (is : List Op) (os : List Obs) (w : Watchdog),
    Run machine (new period) is os w → w.outputChanged = false →
      w.irq = w.irqLevel ∧ w.resetO = w.resetLevel := by
  intro h
  have hx : (exec machine (new 10) tickNotified).map (fun r =>
      (r.1.outputChanged, r.1.irq, r.1.irqLevel)) = some (false, false, true) := by decide +kernel
  obtain ⟨⟨w, os⟩, he, hs⟩ := Option.map_eq_some_iff.1 hx
  simp only [Prod.mk.injEq] at hs
  obtain ⟨hc, hirq, hlevel⟩ := hs
  have heq := (h 10 tickNotified os w (Run.of_exec he) hc).1
  rw [hirq, hlevel] at heq
  cases heq

end CdcVp
