import CdcVp.TimerPeriod
import CdcVp.TimerReset

/-!
# The timer on the clock

`Periodic` is the timer after so many count events. On the internal clock the count events themselves are on
time: `InTick` is where the thread and the clock are after `n` of them, the `n`-th having come `n` tick periods
after the wait began, with nothing lost between a count and the next wait.
-/

namespace CdcVp
open Runs

namespace Timer
variable {s₀ s s' a : Timer} {op : Op} {o : List Obs} {tr : List (Step Timer Op Obs)} {e : Step Timer Op Obs}
variable {t₀ n period : Nat}

/-- A thread that waits for a tick began to in the past, and is woken before the tick is over. -/
def Ticking (s : Timer) : Prop := ∀ since, s.timerThread = .counting (.tick since) →
  since ≤ s.now ∧ (0 < s.tickPeriod → s.now < since + s.tickPeriod)

namespace Ticking

theorem of_ne (h : ∀ since, s.timerThread ≠ .counting (.tick since)) : s.Ticking := fun since ht => absurd ht (h since)

theorem head (h : HeadMove a s) : s.Ticking := by
  cases h with
  | reset | disabled => exact of_ne fun _ => TimerThread.noConfusion
  | counting high on =>
    intro since ht
    cases hx : a.exClk with
    | true => simp [hx] at ht
    | false =>
      obtain rfl : a.now = since := by simpa [hx] using ht
      exact ⟨Nat.le_refl _, Nat.lt_add_of_pos_right⟩

theorem step (h : Move s op s' o) (hs : s.Ticking) : s'.Ticking := by
  have notify : ∀ since, s.timerThread.notifyUpdate ≠ .counting (.tick since) ∧
      s.timerThread.notifyClear ≠ .counting (.tick since) := by
    intro since
    cases s.timerThread <;> exact ⟨TimerThread.noConfusion, TimerThread.noConfusion⟩
  cases h with
  | bus t h =>
    cases h with
    | quiet | read => exact hs
    | ctrl | value | reload => exact of_ne fun since => (notify since).1
    | ack => exact of_ne fun since => (notify since).2
  | prstn | extin | waiting => exact hs
  | enter ht hh | count c ht hc hh => exact fun since => head hh since
  | delta hr => exact fun since ht => hs since (TimerThread.delta_eq_tick ht)
  | advance time settled later hno => exact fun since ht => ⟨(hs since ht).1.trans later.le, fun _ => hno since ht⟩
  | timeout => exact of_ne fun _ => TimerThread.noConfusion

theorem of_run {prstn extin : Bool} {is : List Op} {os : List Obs} (h : Run machine (new period prstn extin) is os s) :
    s.Ticking :=
  h.inv Ticking (of_ne fun _ => TimerThread.noConfusion) fun _ _ _ _ hi hs => hs.step (machine_move hi)

end Ticking

/-- After `n` counts: in the tick that is next, or at its end and about to count it. -/
def InTick (t₀ period n : Nat) (s : Timer) : Prop :=
  s.timerThread = .counting (.tick (t₀ + n * period)) ∧ t₀ + n * period ≤ s.now ∧
      s.now < t₀ + (n + 1) * period ∨
    s.timerThread = .counted .timeout ∧ s.now = t₀ + (n + 1) * period

namespace InTick

theorem congr (h : InTick t₀ period n s) (ht : s'.timerThread = s.timerThread) (hnow : s'.now = s.now) :
    InTick t₀ period n s' := by
  unfold InTick
  rw [ht, hnow]
  exact h

theorem end_eq (t₀ n period : Nat) : t₀ + n * period + period = t₀ + (n + 1) * period := by
  rw [Nat.succ_mul, Nat.add_assoc]

/-- A step of the kernel, with the inputs held. -/
theorem keep (hs : InTick t₀ period n s) (hper : s.tickPeriod = period) (h : Move s op s' o)
    (hno : ¬ IsWrite ⟨s, op, s', o⟩) (hcount : ∀ c, op = .timerThread → s.timerThread ≠ .counted c)
    (hp : s.prstn = true) (hp' : s'.prstn = true) : InTick t₀ period n s' := by
  cases h with
  | bus t h =>
    cases h with
    | quiet | read => exact hs
    | ctrl data ht => exact absurd (.inl ⟨t, rfl, data, .inl ht⟩) hno
    | value data ht => exact absurd (.inl ⟨t, rfl, data, .inr (.inl ht)⟩) hno
    | reload data ht => exact absurd (.inl ⟨t, rfl, data, .inr (.inr ht)⟩) hno
    | ack ht => exact absurd (.inr ⟨t, rfl, ht⟩) hno
  | prstn | extin | waiting => exact hs
  | enter ht hh =>
    rcases hs with ⟨h, -⟩ | ⟨h, -⟩ <;> rw [h] at ht <;> simp at ht
  | count c ht hc hh => exact absurd ht (hcount c rfl)
  | delta hr =>
    rcases hs with ⟨ht, hle, hlt⟩ | ⟨ht, -⟩
    · refine .inl ⟨?_, hle, hlt⟩
      have hnext : s.prstnNext = true := hp'
      show s.timerThread.delta _ _ _ _ _ = _
      rw [ht, TimerThread.delta_tick, hper, end_eq, if_neg (Nat.not_le_of_lt hlt), hp, hnext]
      rfl
    · rw [ht] at hr
      cases hr
  | advance time settled later stays =>
    rcases hs with ⟨ht, hle, hlt⟩ | ⟨ht, -⟩
    · refine .inl ⟨ht, hle.trans later.le, ?_⟩
      have hlt' := stays _ ht
      rwa [hper, end_eq] at hlt'
    · have hr := settled.2.1
      rw [ht] at hr
      cases hr
  | timeout since ht settled later =>
    rcases hs with ⟨h, -⟩ | ⟨h, -⟩
    · obtain rfl : t₀ + n * period = since := by simpa [h] using ht
      refine .inr ⟨rfl, ?_⟩
      show t₀ + n * period + s.tickPeriod = _
      rw [hper, end_eq]
    · rw [h] at ht
      cases ht

/-- How many ticks are over. -/
theorem div_eq (hs : InTick t₀ period n s) (hr : s.timerThread.runnable = false) : (s.now - t₀) / period = n := by
  rcases hs with ⟨-, hle, hlt⟩ | ⟨ht, -⟩
  · have hlo : n * period ≤ s.now - t₀ := by omega
    have hhi : s.now - t₀ < (n + 1) * period := by omega
    exact Nat.div_eq_of_lt_le hlo hhi
  · rw [ht] at hr
    cases hr

end InTick

/-- The timer on the clock, after a history that began in `s₀` with the wait for a tick. -/
structure OnTime (s₀ : Timer) (t₀ period : Nat) (tr : List (Step Timer Op Obs)) (s : Timer) : Prop where
  periodic : Periodic s₀ tr s
  inTick : InTick t₀ period (counts tr) s

namespace OnTime

/-- A turn of the thread from its wait is the next count, and the wait after it begins at once. -/
theorem count {c : Cause} (hs : OnTime s₀ t₀ period tr s) (hen : s₀.enabled = true) (hx : s₀.exClk = false)
    (hgate : s₀.ctrlReg &&& opsExEn = 0) (hpos : 0 < period) (ht : s.timerThread = .counted c)
    (hc : CountMove s a o) (hh : HeadMove a s') :
    IsCount ⟨s, .timerThread, { s' with evaluating := true }, o⟩ ∧ s.now = t₀ + (counts tr + 1) * period ∧
      InTick t₀ period (counts tr + 1) { s' with evaluating := true } := by
  have hopen : s.gated = false := by simp [gated, hs.periodic.ctrl, hgate]
  obtain ⟨htimeout, hnow⟩ : s.timerThread = .counted .timeout ∧ s.now = t₀ + (counts tr + 1) * period := by
    rcases hs.inTick with ⟨h, -⟩ | h
    · rw [ht] at h
      cases h
    · exact h
  refine ⟨⟨rfl, .inl htimeout, hopen⟩, hnow, ?_⟩
  have hnext : s.now < t₀ + (counts tr + 1 + 1) * period := by
    rw [hnow, ← InTick.end_eq _ (counts tr + 1)]
    exact Nat.lt_add_of_pos_right hpos
  have hon := hs.periodic.enabled hen
  have hwait : (if s.exClk then CountWait.clock else .tick s.now) = .tick (t₀ + (counts tr + 1) * period) := by
    rw [exClk, hs.periodic.ctrl, ← exClk, hx, ← hnow]
    rfl
  cases hc with
  | consume flag => exact absurd flag (ne_true_of_eq_false hs.periodic.flag)
  | closed flag gated => exact absurd gated (ne_true_of_eq_false hopen)
  | zero | down =>
    cases Periodic.head_waits hh hs.periodic.prstn hon
    exact .inl ⟨congrArg TimerThread.counting hwait, hnow.ge, hnext⟩

theorem step (hs : OnTime s₀ t₀ period tr s) (hen : s₀.enabled = true) (hx : s₀.exClk = false)
    (hgate : s₀.ctrlReg &&& opsExEn = 0) (hpos : 0 < period) (hper : s.tickPeriod = period) (h : Move s op s' o)
    (hno : ¬ IsWrite ⟨s, op, s', o⟩) (hp : s'.prstn = true) :
    OnTime s₀ t₀ period (tr ++ [⟨s, op, s', o⟩]) s' := by
  refine ⟨hs.periodic.step hen h hno hp, ?_⟩
  rw [counts_snoc]
  by_cases hturn : ∃ c, op = .timerThread ∧ s.timerThread = .counted c
  · obtain ⟨c, rfl, ht⟩ := hturn
    cases h with
    | waiting hr => exact absurd ht (TimerThread.ne_counted hr c)
    | enter h => rcases h with h | h | h <;> cases ht.symm.trans h
    | count _ _ hc hh =>
      obtain ⟨hcount, -, hin⟩ := hs.count hen hx hgate hpos ht hc hh
      rw [if_pos hcount]
      exact hin
  · have hcount : ¬ IsCount ⟨s, op, s', o⟩ := by
      rintro ⟨hop, ht | ht, -⟩
      · exact hturn ⟨_, hop, ht⟩
      · exact hturn ⟨_, hop, ht⟩
    rw [if_neg hcount, Nat.add_zero]
    exact hs.inTick.keep hper h hno (fun c hop ht => hturn ⟨c, hop, ht⟩) hs.periodic.prstn hp

/-- A history that begins in the wait for a tick. -/
theorem of_run {prstn extin : Bool} {is₀ is : List Op} {os₀ : List Obs}
    (hrun₀ : Run machine (new period prstn extin) is₀ os₀ s₀) (hpos : 0 < period)
    (ht : s₀.timerThread = .counting (.tick t₀)) (hgate : s₀.ctrlReg &&& opsExEn = 0) (hf : s₀.intrClearInc = false)
    (hrun : Run (traced machine) s₀ is tr s) (hno : ∀ e ∈ tr, ¬ IsWrite e) (hp : ∀ e ∈ tr, e.post.prstn = true) :
    OnTime s₀ t₀ period tr s := by
  have hw := WaitInv.of_run hrun₀
  obtain ⟨hp₀, hen, hx, -⟩ := hw.tick ht
  induction hrun with
  | nil =>
    have hu : ¬ (s₀.timerThread = .counted .update ∧ s₀.gated = false) := by simp [ht]
    obtain ⟨hle, hlt⟩ := Ticking.of_run hrun₀ t₀ ht
    rw [tickPeriod_of_run hrun₀] at hlt
    refine ⟨Periodic.init hw hp₀ hf hu, .inl ⟨?_, ?_, ?_⟩⟩
    · simpa [counts] using ht
    · simpa [counts] using hle
    · simpa [counts] using hlt hpos
  | snoc hrun hi ih =>
    obtain ⟨⟨b, o⟩, hb, heq⟩ := Option.map_eq_some_iff.1 hi
    cases heq
    rw [List.forall_mem_append, List.forall_mem_singleton] at hno hp
    have hper := tickPeriod_of_run (hrun₀.append hrun.of_traced)
    exact (ih hno.1 hp.1).step hen hx hgate hpos hper (machine_move hb) hno.2 hp.2

/-- The next tick ends on time. -/
theorem advance_iff (hs : OnTime s₀ t₀ period tr s) (hper : s.tickPeriod = period) (hsettled : s.Settled)
    (time : Nat) : machine s (.advance time) ≠ none ↔ s.now < time ∧ time ≤ t₀ + (counts tr + 1) * period := by
  rcases hs.inTick with ⟨ht, -⟩ | ⟨ht, -⟩
  · simp only [machine, ht, hsettled, hper, InTick.end_eq, true_and]
    split_ifs <;> simp <;> omega
  · have hr := hsettled.2.1
    rw [ht] at hr
    cases hr

end OnTime
end Timer

open Timer

/-- The timer is on time. From a reachable state in which the thread waits for a tick since `t₀`, with a positive
tick period, EX_EN clear and no acknowledgement pending, in every run in which `prstn` stays high and no register is
written: the `n`-th count comes at `t₀` plus `n` periods. Whenever the thread is not about to run, VALUE, the zero
crossings and the status are those of a down counter after as many counts as there were whole periods since `t₀`,
and the line in a settled state. There time can pass, up to the end of the tick and no further. -/
theorem timer_on_time (period : Nat) (prstn extin : Bool) (is₀ : List Op) (os₀ : List Obs) (s₀ : Timer) (t₀ : Nat)
    (is : List Op) (tr : List (Step Timer Op Obs)) (s : Timer)
    (hrun₀ : Run machine (new period prstn extin) is₀ os₀ s₀) (hperiod : 0 < period)
    (ht : s₀.timerThread = .counting (.tick t₀)) (hgate : s₀.ctrlReg &&& opsExEn = 0)
    (hf : s₀.intrClearInc = false) (hrun : Run (traced machine) s₀ is tr s) (hno : ∀ e ∈ tr, ¬ IsWrite e)
    (hp : ∀ e ∈ tr, e.post.prstn = true) :
    (∀ tr₁ e tr₂, tr = tr₁ ++ e :: tr₂ → IsCount e → e.pre.now = t₀ + (counts tr₁ + 1) * period) ∧
    (s.timerThread.runnable = false → counts tr = (s.now - t₀) / period ∧
      s.valueReg.toNat = DownCounter.after s₀.reloadReg.toNat s₀.valueReg.toNat ((s.now - t₀) / period) ∧
      zeroCrossings tr = DownCounter.crossings s₀.reloadReg.toNat s₀.valueReg.toNat ((s.now - t₀) / period) ∧
      (s.intrStatus = true ↔ s₀.intrStatus = true ∨ s₀.valueReg.toNat < (s.now - t₀) / period)) ∧
    (s.Settled →
      (s.timerint = true ↔
        s₀.timerintNext = true ∨ s₀.valueReg.toNat < (s.now - t₀) / period ∧ s₀.intrEnabled = true) ∧
      ∀ time, machine s (.advance time) ≠ none ↔
        s.now < time ∧ time ≤ t₀ + ((s.now - t₀) / period + 1) * period) := by
  have hs := OnTime.of_run hrun₀ hperiod ht hgate hf hrun hno hp
  have hcross : zeroCrossings tr ≠ 0 ↔ s₀.valueReg.toNat < counts tr := by
    rw [hs.periodic.crossings, DownCounter.crossings]
    split_ifs <;> simp <;> omega
  refine ⟨?_, fun hr => ?_, fun hsettled => ?_⟩
  · rintro tr₁ e tr₂ rfl hcount
    obtain ⟨is₁, is₂, rfl, hpre, hstep, -⟩ := hrun.split
    have hs₁ := OnTime.of_run hrun₀ hperiod ht hgate hf hpre (fun f hf => hno f (by simp [hf]))
      fun f hf => hp f (by simp [hf])
    rcases hs₁.inTick with ⟨h, -⟩ | ⟨-, hnow⟩
    · rcases hcount.2.1 with hc | hc <;> cases h.symm.trans hc
    · exact hnow
  · have hk := hs.inTick.div_eq hr
    rw [hk]
    exact ⟨rfl, hs.periodic.value, hs.periodic.crossings, hs.periodic.status.trans (or_congr_right hcross)⟩
  · have hk := hs.inTick.div_eq hsettled.2.1
    have hper := tickPeriod_of_run (hrun₀.append hrun.of_traced)
    rw [hk, hsettled.2.2.2.2.2, hs.periodic.line, hcross]
    exact ⟨Iff.rfl, hs.advance_iff hper hsettled⟩

/-- Two ticks of 20 ns and half of the third. -/
def twoTicks : List Op :=
  [.advance 20000, .timerThread, .delta, .advance 40000, .timerThread, .delta, .advance 50000]

theorem timer_on_time_twoTicks : ∃ os₀ s₀ tr s, Run machine (new 20000 true true) reloadFive os₀ s₀ ∧
    Run (traced machine) s₀ twoTicks tr s ∧ counts tr = 2 ∧ s.valueReg.toNat = 3 := by
  have hx : (exec machine (new 20000 true true) reloadFive).bind (fun r => (exec (traced machine) r.1 twoTicks).map
      fun q => ((r.1.timerThread, r.1.ctrlReg, r.1.intrClearInc), (r.1.valueReg, r.1.reloadReg),
        (q.1.timerThread.runnable, q.1.now),
        q.2.all fun e => decide (¬ IsWrite e) && e.post.prstn)) =
      some ((.counting (.tick 0), 1, false), (5, 5), (false, 50000), true) := by decide +kernel
  obtain ⟨⟨s₀, os₀⟩, h₀, hx⟩ := Option.bind_eq_some_iff.1 hx
  obtain ⟨⟨s, tr⟩, h₁, hx⟩ := Option.map_eq_some_iff.1 hx
  simp only [Prod.mk.injEq, List.all_eq_true, Bool.and_eq_true, decide_eq_true_eq] at hx
  obtain ⟨⟨ht, hctrl, hf⟩, ⟨hv, hr⟩, ⟨hrun, hnow⟩, hquiet⟩ := hx
  have hgate : s₀.ctrlReg &&& opsExEn = 0 := by rw [hctrl]; decide
  obtain ⟨-, hat, -⟩ := timer_on_time 20000 true true reloadFive os₀ s₀ 0 twoTicks tr s (Run.of_exec h₀) (by decide)
    ht hgate hf (Run.of_exec h₁) (fun e he => (hquiet e he).1) fun e he => (hquiet e he).2
  obtain ⟨hcount, hvalue, -⟩ := hat hrun
  rw [hnow] at hcount hvalue
  rw [hv, hr] at hvalue
  exact ⟨os₀, s₀, tr, s, Run.of_exec h₀, Run.of_exec h₁, hcount, hvalue⟩

end CdcVp
