import CdcVp.ClintLevel
import Mathlib.Data.List.Infix

/-!
# Whether the CLINT lets time pass

`reschedule` computes the goal modulo `2 ^ 64`. While `mtimecmp` stays in the range where the product is
exact, every wake-up before the compare time re-arms for the compare time itself, and `timer_proc` goes
round its loop at most once for each write of `mtimecmp` and each expiry (`Paced`). Out of that range the
goal may lie in the past, and `timer_proc` re-notifies itself for ever within one instant (`spins`).
-/

namespace CdcVp
open FlatStore LittleEndian Runs ScEvent

namespace Clint
variable {c c' : Clint} {op : Op} {o os : List Event}

def InRange (c : Clint) : Prop := c.mtimecmp.toNat * 10 ^ 6 < 2 ^ 64

/-- The notification of a wake-up before the compare time is in the future and no earlier than the compare
time. -/
def Progress (c : Clint) : Prop :=
  0 < c.rescheduleDelay ∧ c.mtimecmp.toNat * 10 ^ 6 ≤ c.now.toNat + c.rescheduleDelay

theorem progress_iff (hlt : c.now.toNat / 10 ^ 6 < c.mtimecmp.toNat) : c.Progress ↔ c.InRange := by
  constructor
  · rintro ⟨hpos, hle⟩
    rw [now_add_rescheduleDelay hpos] at hle
    exact hle.trans_lt (Nat.mod_lt _ (by decide))
  · intro hr
    have hnow := (Nat.div_lt_iff_lt_mul (by decide)).1 hlt
    have hpos : 0 < c.rescheduleDelay := (rescheduleDelay_pos_iff c).2 (by
      rw [Nat.mod_eq_of_lt hr]; exact hnow)
    refine ⟨hpos, ?_⟩
    rw [now_add_rescheduleDelay hpos, Nat.mod_eq_of_lt hr]

/-! ### Wake-ups of one instant -/

/-- The events since time last advanced, latest first. -/
def thisInstant (os : List Event) : List Event := os.reverse.takeWhile fun e => e ≠ .advanced

@[simp] theorem thisInstant_advanced (os : List Event) : thisInstant (os ++ [.advanced]) = [] := by
  simp [thisInstant]

theorem thisInstant_snoc {e : Event} (os : List Event) (h : e ≠ .advanced) :
    thisInstant (os ++ [e]) = e :: thisInstant os := by
  simp [thisInstant, h]

/-- Wake-ups of `timer_proc` that are still due at the current time, the expiry apart. -/
def due (c : Clint) : Nat := (if c.timerProc = .woken then 1 else 0) + if c.cmpEvent = .delta then 1 else 0

def expiring (c : Clint) : Nat := if c.cmpEvent = .timed c.now.toNat then 1 else 0

/-- Every wake-up of this instant, and every one still due in it, is paid for by a write of `mtimecmp` or by
the expiry, and there is at most one expiry. -/
structure Paced (os : List Event) (c : Clint) : Prop where
  timer : Timer c
  wakes : (thisInstant os).count .woke + c.due ≤ (thisInstant os).count .wrote + (thisInstant os).count .expired
  expiries : (thisInstant os).count .expired + c.expiring ≤ 1

namespace Paced

theorem new : Paced [] Clint.new where
  timer := .new
  wakes := by decide
  expiries := by decide

theorem cmpEvent_turn (hr : c.InRange) (ht : Timer c) (hw : c.timerProc = .woken) :
    c.timerTurn.cmpEvent = c.cmpEvent ∨
      ∃ t, c.timerTurn.cmpEvent = .timed t ∧ c.cmpEvent = .none ∧ t ≠ c.now.toNat := by
  rw [cmpEvent_timerTurn]
  split
  · exact .inl rfl
  rename_i hor
  obtain ⟨hnf, hz⟩ := not_or.1 hor
  have hlt : c.now.toNat / 10 ^ 6 < c.mtimecmp.toNat := Nat.lt_of_not_le fun h => hnf ⟨hz, h⟩
  obtain ⟨hpos, -⟩ := (progress_iff hlt).2 hr
  rcases ht.woken hw with hev | hev <;> rw [hev]
  · exact .inr ⟨_, Notification.notify_none hpos, rfl, by omega⟩
  · exact .inl rfl

/-- The account of an event that is not an advance of time. -/
theorem snoc {e : Event} (hp : Paced os c) (ht : Timer c') (he : e ≠ .advanced)
    (hdue : (if e = .woke then 1 else 0) + c'.due ≤
      c.due + (if e = .wrote then 1 else 0) + (if e = .expired then 1 else 0))
    (hexp : (if e = .expired then 1 else 0) + c'.expiring ≤ c.expiring) : Paced (os ++ [e]) c' := by
  have hw := hp.wakes
  have hx := hp.expiries
  refine ⟨ht, ?_, ?_⟩
  · simp only [thisInstant_snoc os he, List.count_cons, beq_iff_eq]
    omega
  · simp only [thisInstant_snoc os he, List.count_cons, beq_iff_eq]
    omega

/-- The account of a step that shows nothing. -/
theorem silent (hp : Paced os c) (ht : Timer c') (hdue : c'.due ≤ c.due) (hexp : c'.expiring ≤ c.expiring) :
    Paced (os ++ []) c' := by
  rw [List.append_nil]
  exact ⟨ht, (Nat.add_le_add_left hdue _).trans hp.wakes, (Nat.add_le_add_left hexp _).trans hp.expiries⟩

theorem advanced (ht : Timer c') (hdue : c'.due = 0) : Paced (os ++ [.advanced]) c' := by
  refine ⟨ht, ?_, ?_⟩ <;> rw [thisInstant_advanced]
  · rw [hdue]
    exact Nat.zero_le _
  · unfold expiring
    split <;> simp

theorem due_waiting (hw : c.timerProc = .waiting) : c.due = if c.cmpEvent = .delta then 1 else 0 := by
  rw [due, hw, if_neg (by decide), Nat.zero_add]

theorem due_eq_zero (hw : c.timerProc = .waiting) (he : c.cmpEvent ≠ .delta) : c.due = 0 := by
  rw [due_waiting hw, if_neg he]

theorem step (hr : c.InRange) (h : machine c op = some (c', o)) (hp : Paced os c) : Paced (os ++ o) c' := by
  have ht' := hp.timer.step h
  rcases step_cases h with ⟨t, d, r, rfl, hrun, rfl, rfl⟩ | ⟨rfl, hst, rfl, rfl⟩ | ⟨rfl, hwk, rfl, rfl⟩ |
    ⟨rfl, hw, hdl, rfl, rfl⟩ | ⟨time, rfl, hw, -, hev, rfl, rfl⟩ | ⟨rfl, hw, hex, rfl, rfl⟩
  · rcases bTransport_cases hrun with ⟨hno, hs⟩ | ⟨hwr, v, hs⟩
    · rw [if_neg hno]
      refine hp.silent ht' ?_ ?_
      · rw [due, due, hs.timerProc, hs.cmpEvent]
      · rw [expiring, expiring, hs.cmpEvent, hs.now]
    · rw [if_pos hwr]
      refine hp.snoc ht' (by decide) ?_ ?_
      · have hdue : r.1.due ≤ c.due + 1 := by
          rw [hs, due, due, if_pos rfl]
          exact Nat.add_le_add_right (Nat.le_add_right _ _) 1
        simpa using hdue
      · rw [hs]
        exact Nat.zero_le _
  · refine hp.silent ht' ?_ (Nat.le_refl _)
    rw [due_waiting rfl, due, hst]
    exact Nat.le_add_left _ _
  · have hturn := cmpEvent_turn hr hp.timer hwk
    refine hp.snoc ht' (by decide) ?_ ?_
    · rw [due_waiting (timerTurn_timerProc c), due, if_pos hwk]
      rcases hturn with hev | ⟨t, hev, -, -⟩ <;> rw [hev]
      · simp
      · simp
    · rw [expiring, expiring, timerTurn_now]
      rcases hturn with hev | ⟨t, hev, -, hne⟩ <;> rw [hev]
      · simp
      · rw [if_neg (show ¬ Notification.timed t = .timed c.now.toNat by simpa using hne)]
        exact Nat.zero_le _
  · refine hp.silent ht' ?_ (Nat.zero_le _)
    rw [due_waiting hw, if_pos hdl]
    exact Nat.le_refl 1
  · have hnd : c.cmpEvent ≠ .delta := by
      rcases hev with hev | ⟨t, hev, -⟩ <;> rw [hev] <;> simp
    exact advanced ht' (due_eq_zero hw hnd)
  · refine hp.snoc ht' (by decide) ?_ ?_
    · rw [due_waiting hw, hex]
      exact Nat.le_refl 1
    · rw [expiring, expiring, if_pos hex]
      exact Nat.le_refl 1

end Paced

/-! ### Out of range -/

/-- Woken before a compare time whose goal wraps into the past, `timer_proc` wakes as often as one likes with
no time passing. -/
theorem spins (hw : c.timerProc = .woken) (hev : c.cmpEvent = .none) (hz : c.mtimecmp ≠ 0) (hnf : ¬ c.Fired)
    (hd : c.rescheduleDelay = 0) (k : Nat) :
    ∃ is c', Run machine c is (List.replicate k .woke) c' ∧ c'.now = c.now := by
  have key : ∃ is c', Run machine c is (List.replicate k .woke) c' ∧ c'.timerProc = .woken ∧
      c'.cmpEvent = .none ∧ c'.mtimecmp = c.mtimecmp ∧ c'.now = c.now := by
    induction k with
    | zero => exact ⟨[], c, .nil, hw, hev, rfl, rfl⟩
    | succ k ih =>
      obtain ⟨is, a, hrun, haw, hae, ham, han⟩ := ih
      have hnfa : ¬ (a.Fired ∨ a.mtimecmp = 0) := by
        rw [fired_congr ham han, ham]
        exact not_or.2 ⟨hnf, hz⟩
      have hda : a.rescheduleDelay = 0 := by
        rw [rescheduleDelay, ham, han]
        exact hd
      have hdelta : a.timerTurn.cmpEvent = .delta := by
        rw [cmpEvent_timerTurn, if_neg hnfa, hda, Notification.notify_zero]
      have h1 : machine a .wake = some (a.timerTurn, [.woke]) := if_pos haw
      have h2 : machine a.timerTurn .delta =
          some ({ a.timerTurn with cmpEvent := .none, timerProc := .woken }, []) :=
        if_pos ⟨a.timerTurn_timerProc, hdelta⟩
      refine ⟨is ++ [.wake] ++ [.delta], { a.timerTurn with cmpEvent := .none, timerProc := .woken }, ?_, rfl, rfl,
        a.timerTurn_mtimecmp.trans ham, a.timerTurn_now.trans han⟩
      have := (hrun.snoc h1).snoc h2
      rwa [List.append_nil, ← List.replicate_succ'] at this
  obtain ⟨is, c', hrun, -, -, -, hnow⟩ := key
  exact ⟨is, c', hrun, hnow⟩

end Clint

open Clint

/-- Whether the CLINT lets time pass. In a state reached before the compare time, a wake-up re-arms strictly in
the future and no earlier than the compare time iff the compare time in picoseconds fits 64 bits; and in a
run in which it always does, `timer_proc` wakes at most once for each write of `mtimecmp` and each expiry of
an instant, of which there is at most one. -/
theorem clint_progress_iff (is : List Op) (os : List Event) (c : Clint) (hrun : Run machine Clint.new is os c) :
    (c.mtimecmp ≠ 0 → c.now.toNat / 10 ^ 6 < c.mtimecmp.toNat →
      (c.Progress ↔ c.mtimecmp.toNat * 10 ^ 6 < 2 ^ 64)) ∧
    ((∀ is₁ is₂ os₁ a, is = is₁ ++ is₂ → Run machine Clint.new is₁ os₁ a →
        a.mtimecmp.toNat * 10 ^ 6 < 2 ^ 64) →
      (thisInstant os).count .woke ≤ (thisInstant os).count .wrote + (thisInstant os).count .expired ∧
        (thisInstant os).count .expired ≤ 1) := by
  refine ⟨fun _ hlt => progress_iff hlt, ?_⟩
  intro hin
  have hp : Paced os c := by
    induction hrun with
    | nil => exact .new
    | snoc hrun' h ih =>
      exact (ih fun is₁ is₂ os₁ a heq hr => hin is₁ _ os₁ a (by rw [heq, List.append_assoc]) hr).step
        (hin _ _ _ _ rfl hrun') h
  exact ⟨(Nat.le_add_right _ _).trans hp.wakes, (Nat.le_add_right _ _).trans hp.expiries⟩

def armed : List Op :=
  [.start, .transport ⟨.write, kRegMtimecmp, some [3, 0, 0, 0, 0, 0, 0, 0], 8, .incomplete, false⟩ 0, .delta,
    .wake]

theorem clint_progress_iff_armed : ∃ c os, Run machine Clint.new armed os c ∧
    (thisInstant os).count .woke ≤ (thisInstant os).count .wrote + (thisInstant os).count .expired ∧
    (c.Progress ↔ c.mtimecmp.toNat * 10 ^ 6 < 2 ^ 64) := by
  have hx : (exec machine Clint.new armed).map (fun r => (r.1.mtimecmp, r.1.now)) = some (3, 0) := by
    decide +kernel
  obtain ⟨⟨c, os⟩, he, hc⟩ := Option.map_eq_some_iff.1 hx
  obtain ⟨hm, hn⟩ := Prod.mk.inj hc
  have hin : ∀ is₁ ∈ armed.inits, ∀ r ∈ exec machine Clint.new is₁, r.1.mtimecmp.toNat * 10 ^ 6 < 2 ^ 64 := by
    decide +kernel
  have hrun := Run.of_exec he
  obtain ⟨hiff, hpaced⟩ := clint_progress_iff armed os c hrun
  refine ⟨c, os, hrun, (hpaced fun is₁ is₂ os₁ a heq hr => ?_).1, hiff ?_ ?_⟩
  · exact hin is₁ ((List.mem_inits _ _).2 ⟨is₂, heq.symm⟩) (a, os₁) hr.exec_eq
  · rw [show c.mtimecmp = 3 from hm]; decide
  · rw [show c.mtimecmp = 3 from hm, show c.now = 0 from hn]; decide

/-- `mtimecmp` set to 18446744073710 at one microsecond; in picoseconds that is 448384 more than `2 ^ 64`. -/
def tooFar : List Op :=
  [.start, .advance 1000000,
    .transport ⟨.write, kRegMtimecmp, some [0xEE, 0xB5, 0xA0, 0xF7, 0xC6, 0x10, 0, 0], 8, .incomplete, false⟩ 0,
    .delta]

/-- The wake-up that follows notifies for the current time, and so does every later one: the clock stands
still. -/
theorem not_progress_tooFar :
    (¬ ∀ (is : List Op) (os : List Event) (c : Clint), Run machine Clint.new is os c → c.timerProc = .woken →
      c.mtimecmp ≠ 0 → c.now.toNat / 10 ^ 6 < c.mtimecmp.toNat → c.Progress) ∧
    ∃ os c, Run machine Clint.new tooFar os c ∧
      ∀ k, ∃ is c', Run machine c is (List.replicate k .woke) c' ∧ c'.now = c.now := by
  have hx : (exec machine Clint.new tooFar).map (fun r =>
      (r.1.timerProc, r.1.cmpEvent, r.1.mtimecmp, r.1.now)) =
        some (.woken, .none, 18446744073710, 1000000) := by decide +kernel
  obtain ⟨⟨c, os⟩, he, hc⟩ := Option.map_eq_some_iff.1 hx
  simp only [Prod.mk.injEq] at hc
  obtain ⟨hw, hev, hm, hn⟩ := hc
  have hrun := Run.of_exec he
  have hd : c.rescheduleDelay = 0 := by
    rw [rescheduleDelay, hm, hn]
    decide
  have hnf : ¬ c.Fired := by
    rw [Fired, hm, hn]
    decide
  refine ⟨fun h => ?_, os, c, hrun, spins hw hev (by rw [hm]; decide) hnf hd⟩
  have hp := h tooFar os c hrun hw (by rw [hm]; decide) (by rw [hm, hn]; decide)
  rw [Progress, hd] at hp
  exact Nat.lt_irrefl 0 hp.1

end CdcVp
