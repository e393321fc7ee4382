import CdcVp.WatchdogMove

/-!
# The lock of the watchdog

While the lock is set a write changes nothing unless it is to WDOG_LOCK, whatever its address, its data and
what is wrong with its payload; so a run without such writes is a run with the same observations. A write to
WDOG_LOCK leaves the locked state iff its data is the unlock value.
-/

namespace CdcVp
open FlatStore LittleEndian Runs

namespace Watchdog
variable {w w' : Watchdog} {op : Op} {o : List Obs}

/-- A write that arrives while the lock is set and is not to WDOG_LOCK. -/
def lockedWrite (w : Watchdog) (op : Op) : Bool :=
  match op with
  | .transport t => w.locked && t.command = .write && addrOf t ≠ wdogLock
  | _ => false

/-- A write of the unlock value to WDOG_LOCK that passes the checks. -/
def Unlocks (t : ApbPayload) : Prop :=
  t.command = .write ∧ addrOf t = wdogLock ∧ wordOf t = some lockUnlockValue

/-- A transaction that is not a write leaves the lock. -/
theorem locked_of_not_write {t t' : ApbPayload} (hc : t.command ≠ .write)
    (h : w.bTransport t = some (w', t', o)) : w'.locked = w.locked := by
  rcases bTransport_not_write hc h with ⟨rfl, -⟩ | ⟨rfl, -⟩ <;> rfl

theorem writeReg_locked {addr data : UInt32} (hl : w.locked = true) (ha : addr ≠ wdogLock) :
    w.writeReg addr data = (w, []) := by
  rw [writeReg, if_neg ha, if_pos hl]

theorem lockedWrite_effect (h : lockedWrite w op = true) (hm : machine w op = some (w', o)) :
    w' = w ∧ o = [] := by
  cases op with
  | transport t =>
    simp only [lockedWrite, Bool.and_eq_true, decide_eq_true_eq] at h
    obtain ⟨⟨hl, hc⟩, ha⟩ := h
    obtain ⟨⟨a, t', o'⟩, hb, heq⟩ := Option.map_eq_some_iff.1 hm
    cases heq
    rcases bTransport_write hc hb with ⟨-, rfl, rfl⟩ | ⟨data, -, hw⟩
    · exact ⟨rfl, rfl⟩
    · rw [writeReg_locked hl ha] at hw
      cases hw
      exact ⟨rfl, rfl⟩
  | counterThread | driveOutputs | delta | advance => cases h

/-- What a transaction does to the lock while it is set. -/
theorem unlocked_iff {t t' : ApbPayload} (hl : w.locked = true) (h : w.bTransport t = some (w', t', o)) :
    w'.locked = false ↔ Unlocks t := by
  by_cases hc : t.command = .write
  swap
  · rw [locked_of_not_write hc h, hl]
    exact iff_of_false (by simp) fun hu => hc hu.1
  rcases bTransport_write hc h with ⟨hn, rfl, -⟩ | ⟨data, hd, hw⟩
  · rw [hl]
    refine iff_of_false (by simp) fun hu => ?_
    cases hn.symm.trans hu.2.2
  by_cases ha : addrOf t = wdogLock
  · rw [writeReg, if_pos ha] at hw
    cases hw
    rw [Unlocks, hd, Option.some_inj]
    simp [hc, ha]
  · rw [writeReg_locked hl ha] at hw
    cases hw
    rw [hl]
    exact iff_of_false (by simp) fun hu => ha hu.2.1

/-- A step of the kernel leaves the lock. -/
theorem locked_of_not_transport (hop : ∀ t, op ≠ .transport t) (h : machine w op = some (w', o)) :
    w'.locked = w.locked := by
  cases machine_move h with
  | bus t => exact absurd rfl (hop t)
  | tick woken ht =>
    cases ht with
    | off | count | first | again | reset => rfl
  | start | driveOutputs | delta | advance => rfl

end Watchdog

open Watchdog

/-- The lock of the watchdog is non-interfering. Erasing from a run every write that arrives while the lock is
set and is not to WDOG_LOCK leaves a run with no such write, the same values for all register reads, the same
outputs at the end of every time step and the same state; and a step from a locked state leaves it unlocked
iff it is a write of 0x1ACCE551 to WDOG_LOCK. -/
theorem watchdog_lock_noninterference (period : Nat) (is : List Op) (os : List Obs) (w : Watchdog)
    (hrun : Run machine (new period) is os w) :
    (∃ tr, Run (traced machine) (new period) (erase machine lockedWrite (new period) is) tr w ∧
      tr.flatMap Step.obs = os ∧ ∀ e ∈ tr, lockedWrite e.pre e.input = false) ∧
    ∀ (op : Op) (w' : Watchdog) (o : List Obs), w.locked = true → machine w op = some (w', o) →
      (w'.locked = false ↔ ∃ t, op = .transport t ∧ Unlocks t) := by
  have heff : ∀ a i b o, lockedWrite a i = true → machine a i = some (b, o) → b = a ∧ o = [] :=
    fun _ _ _ _ hs hm => lockedWrite_effect hs hm
  refine ⟨?_, ?_⟩
  · obtain ⟨tr, htr, hos⟩ := (hrun.erase heff).exists_traced
    exact ⟨tr, htr, hos, not_skip_of_erase heff htr⟩
  · intro op w' o hl h
    cases op with
    | transport t =>
      obtain ⟨⟨a, t', o'⟩, hb, heq⟩ := Option.map_eq_some_iff.1 h
      cases heq
      rw [unlocked_iff hl hb]
      exact ⟨fun hu => ⟨t, rfl, hu⟩, fun ⟨_, ht, hu⟩ => Op.transport.inj ht ▸ hu⟩
    | counterThread | driveOutputs | delta | advance =>
      rw [locked_of_not_transport (by simp) h, hl]
      refine iff_of_false (by simp) ?_
      rintro ⟨t, ht, -⟩
      cases ht

/-- A write to WDOG_LOAD while the lock is set, the unlock, and a read of WDOG_LOAD. -/
def lockedLoad : List Op :=
  [.counterThread, .driveOutputs,
    .transport ⟨⟨.write, 0xC00, some [0, 0, 0, 0], 4, .incomplete, false⟩, none, 4⟩,
    .transport ⟨⟨.write, 0x000, some [0x78, 0x56, 0x34, 0x12], 4, .incomplete, false⟩, none, 4⟩,
    .transport ⟨⟨.write, 0xC00, some [0x51, 0xE5, 0xCC, 0x1A], 4, .incomplete, false⟩, none, 4⟩,
    .transport ⟨⟨.read, 0x000, some [0, 0, 0, 0], 4, .incomplete, false⟩, none, 4⟩]

theorem watchdog_lock_noninterference_lockedLoad : ∃ (os : List Obs) (w : Watchdog)
    (tr : List (Step Watchdog Op Obs)), Run machine (new 10) lockedLoad os w ∧ os = [.read 0 0xFFFFFFFF] ∧
      Run (traced machine) (new 10) (erase machine lockedWrite (new 10) lockedLoad) tr w ∧
      tr.flatMap Step.obs = os := by
  have hx : (exec machine (new 10) lockedLoad).map Prod.snd = some [.read 0 0xFFFFFFFF] := by decide +kernel
  obtain ⟨⟨w, os⟩, he, hos⟩ := Option.map_eq_some_iff.1 hx
  have hrun := Run.of_exec he
  obtain ⟨⟨tr, htr, hobs, -⟩, -⟩ := watchdog_lock_noninterference 10 lockedLoad os w hrun
  exact ⟨os, w, tr, hrun, hos, htr, hobs⟩

end CdcVp
