import CdcVp.Clint

/-!
# The CLINT's timer level

`Timer` relates the pending notification, the compare value and the clock. Once nothing is on its way to
`timer_proc`, either no wake-up is armed and the level is settled for good, or one is armed for a time at
which the compare time is not yet passed and the level is low.
-/

namespace CdcVp
open FlatStore LittleEndian Runs ScEvent

namespace Clint
variable {c c' : Clint} {op : Op} {o : List Event}

/-- A notification for the current time is pending, or delivered and `timer_proc` has yet to run for it. -/
def PendingNow (c : Clint) : Prop :=
  c.timerProc = .woken ∨ c.cmpEvent = .delta ∨ c.cmpEvent = .timed c.now.toNat

instance (c : Clint) : Decidable c.PendingNow :=
  inferInstanceAs (Decidable (c.timerProc = .woken ∨ c.cmpEvent = .delta ∨ c.cmpEvent = .timed c.now.toNat))

structure Timer (c : Clint) : Prop where
  woken : c.timerProc = .woken → c.cmpEvent = .none ∨ c.cmpEvent = .delta
  idle : c.timerProc ≠ .woken → c.cmpEvent = .none →
    (c.cpu.level kCauseTimer = true ↔ c.Fired) ∧ (c.mtimecmp = 0 ∨ c.Fired)
  armed : c.timerProc ≠ .woken → ∀ t, c.cmpEvent = .timed t → c.cpu.level kCauseTimer = false ∧
    c.mtimecmp ≠ 0 ∧ c.now.toNat ≤ t ∧ t ≤ c.mtimecmp.toNat * 10 ^ 6

theorem not_fired_of_zero (h : c.mtimecmp = 0) : ¬ c.Fired := fun hf => hf.1 h

theorem Fired.mono (h : c.Fired) (hm : c'.mtimecmp = c.mtimecmp) (hn : c.now.toNat ≤ c'.now.toNat) :
    c'.Fired := by
  rw [Fired, hm]
  exact ⟨h.1, h.2.trans (Nat.div_le_div_right hn)⟩

theorem fired_congr (hm : c'.mtimecmp = c.mtimecmp) (hn : c'.now = c.now) : c'.Fired ↔ c.Fired := by
  rw [Fired, Fired, hm, hn]

namespace Timer

theorem new : Timer Clint.new where
  woken h := by cases h
  idle _ _ := ⟨iff_of_false (by decide) (not_fired_of_zero rfl), .inl rfl⟩
  armed _ t h := by cases h

theorem of_same (ht : Timer c) (h : SameTimer c c') : Timer c' where
  woken hw := by
    rw [h.timerProc] at hw
    rw [h.cmpEvent]
    exact ht.woken hw
  idle hw he := by
    rw [h.timerProc] at hw
    rw [h.cmpEvent] at he
    rw [h.level, h.mtimecmp, fired_congr h.mtimecmp h.now]
    exact ht.idle hw he
  armed hw t he := by
    rw [h.timerProc] at hw
    rw [h.cmpEvent] at he
    rw [h.level, h.mtimecmp, h.now]
    exact ht.armed hw t he

theorem of_delta (h : c.cmpEvent = .delta) : Timer c where
  woken _ := .inr h
  idle _ he := by rw [h] at he; cases he
  armed _ t he := by rw [h] at he; cases he

theorem of_woken (h : c.timerProc = .woken) (he : c.cmpEvent = .none) : Timer c where
  woken _ := .inl he
  idle hw := absurd h hw
  armed hw := absurd h hw

theorem turn (ht : Timer c) (hw : c.timerProc = .woken) : Timer c.timerTurn where
  woken h := by
    rw [timerTurn_timerProc] at h
    cases h
  idle _ he := by
    rw [cmpEvent_timerTurn] at he
    split at he
    · rename_i hor
      rw [level_timerTurn, fired_congr c.timerTurn_mtimecmp c.timerTurn_now, timerTurn_mtimecmp]
      exact ⟨Iff.rfl, hor.symm⟩
    · exact absurd he (Notification.notify_ne_none _ _ _)
  armed _ t he := by
    rw [cmpEvent_timerTurn] at he
    split at he
    · rcases ht.woken hw with hev | hev <;> rw [hev] at he <;> cases he
    · rename_i hor
      obtain ⟨hnf, hz⟩ := not_or.1 hor
      have hlow : c.timerTurn.cpu.level kCauseTimer = false :=
        Bool.eq_false_iff.2 fun h => hnf ((level_timerTurn c).1 h)
      rw [timerTurn_mtimecmp, timerTurn_now]
      rcases ht.woken hw with hev | hev <;> rw [hev] at he
      · by_cases hd : 0 < c.rescheduleDelay
        · have hgoal := now_add_rescheduleDelay hd
          have hmod := Nat.mod_le (c.mtimecmp.toNat * 10 ^ 6) (2 ^ 64)
          rw [Notification.notify_none hd] at he
          cases he
          exact ⟨hlow, hz, Nat.le_add_right _ _, by omega⟩
        · rw [Nat.eq_zero_of_not_pos hd, Notification.notify_zero] at he
          cases he
      · rw [Notification.notify_delta] at he
        cases he

theorem advance (ht : Timer c) {time : UInt64} (hw : c.timerProc = .waiting) (hlt : c.now < time)
    (hle : ∀ t, c.cmpEvent = .timed t → time.toNat ≤ t) : Timer { c with now := time } where
  woken h := by rw [hw] at h; cases h
  idle _ he := by
    have hlt' := UInt64.lt_iff_toNat_lt.1 hlt
    obtain ⟨hl, hz | hf⟩ := ht.idle (by rw [hw]; decide) he
    · exact ⟨iff_of_false (fun h => not_fired_of_zero hz (hl.1 h)) (not_fired_of_zero hz), .inl hz⟩
    · have hf' : Fired { c with now := time } := hf.mono rfl hlt'.le
      exact ⟨iff_of_true (hl.2 hf) hf', .inr hf'⟩
  armed _ t he := by
    obtain ⟨hl, hz, -, hgoal⟩ := ht.armed (by rw [hw]; decide) t he
    exact ⟨hl, hz, hle t he, hgoal⟩

theorem step (h : machine c op = some (c', o)) (ht : Timer c) : Timer c' := by
  rcases step_cases h with ⟨t, d, r, rfl, hr, rfl, -⟩ | ⟨rfl, hst, rfl, -⟩ | ⟨rfl, hw, rfl, -⟩ |
    ⟨rfl, -, -, rfl, -⟩ | ⟨time, rfl, hw, hlt, hev, rfl, -⟩ | ⟨rfl, -, -, rfl, -⟩
  · rcases bTransport_cases hr with ⟨-, hs⟩ | ⟨-, v, hs⟩
    · exact ht.of_same hs
    · rw [hs]
      exact of_delta rfl
  · have hne : c.timerProc ≠ .woken := by rw [hst]; decide
    exact ⟨fun hw => (by cases hw), fun _ he => ht.idle hne he, fun _ t he => ht.armed hne t he⟩
  · exact ht.turn hw
  · exact of_woken rfl rfl
  · refine ht.advance hw hlt fun t ht => ?_
    rcases hev with hev | ⟨t', hev, hle⟩ <;> rw [hev] at ht <;> cases ht
    exact hle
  · exact of_woken rfl rfl

/-- With no notification left for the current time, MTIP says whether the compare time is reached. -/
theorem settled (ht : Timer c) (hquiet : ¬ c.PendingNow) : c.cpu.level kCauseTimer = true ↔ c.Fired := by
  have hw : c.timerProc ≠ .woken := fun h => hquiet (.inl h)
  cases hev : c.cmpEvent with
  | none => exact (ht.idle hw hev).1
  | delta => exact absurd (.inr (.inl hev)) hquiet
  | timed t =>
    obtain ⟨hl, -, hle, hgoal⟩ := ht.armed hw t hev
    have hne : t ≠ c.now.toNat := by
      rintro rfl
      exact hquiet (.inr (.inr hev))
    refine iff_of_false (fun h => Bool.noConfusion (hl.symm.trans h)) ?_
    rintro ⟨_, hm⟩
    have := (Nat.le_div_iff_mul_le (by decide)).1 hm
    omega

end Timer
end Clint

open Clint

/-- In every reachable state with no notification left for the current time, the MTIP level last driven is
high iff `mtimecmp` is set and `mtime` has reached it. -/
theorem clint_level (is : List Op) (os : List Event) (c : Clint) (hrun : Run machine Clint.new is os c)
    (hquiet : ¬ c.PendingNow) :
    c.cpu.level 7 = true ↔ c.mtimecmp ≠ 0 ∧ c.mtimecmp.toNat ≤ c.now.toNat / 10 ^ 6 := by
  have ht : Timer c := hrun.inv Timer .new fun _ _ _ _ h => .step h
  exact ht.settled hquiet

def armedAndPassed : List Op :=
  [.start, .transport ⟨.write, kRegMtimecmp, some [3, 0, 0, 0, 0, 0, 0, 0], 8, .incomplete, false⟩ 0, .delta,
    .wake, .advance 3000000, .expire, .wake]

theorem clint_level_armedAndPassed : ∃ c os, Run machine Clint.new armedAndPassed os c ∧
    c.cpu.level 7 = true ∧ c.mtimecmp ≠ 0 ∧ c.mtimecmp.toNat ≤ c.now.toNat / 10 ^ 6 := by
  have hquiet : (exec machine Clint.new armedAndPassed).map
      (fun r => (r.1.timerProc, r.1.cmpEvent, r.1.cpu.level 7)) = some (.waiting, .none, true) := by decide +kernel
  obtain ⟨⟨c, os⟩, hx, hq⟩ := Option.map_eq_some_iff.1 hquiet
  have hrun := Run.of_exec hx
  simp only [Prod.mk.injEq] at hq
  obtain ⟨hproc, hev, hlevel⟩ := hq
  have hnone : ¬ c.PendingNow := by
    rintro (h | h | h)
    · cases hproc.symm.trans h
    · cases hev.symm.trans h
    · cases hev.symm.trans h
  exact ⟨c, os, hrun, hlevel, (clint_level _ os c hrun hnone).1 hlevel⟩

end CdcVp
