import CdcVp.TimerWait

/-!
# The interrupt line of the timer

The status falls with the acknowledgement, the line only with the next turn that consumes `intr_clear_inc` or
resets. An acknowledgement that comes while the thread waits for the next count, or is about to run from there,
gets that turn; one that comes while it waits for a register write, a `StrayAck`, gets none before the next
wait for a count ends.
-/

namespace CdcVp
open FlatStore LittleEndian Runs

namespace Timer
variable {s s' a : Timer} {op : Op} {o : List Obs} {tr : List (Step Timer Op Obs)} {e : Step Timer Op Obs}

/-- The line is driven high and the status is clear. -/
def Stale (s : Timer) : Prop := s.timerintNext = true ∧ s.intrStatus = false

/-- An acknowledgement with the line driven high while the thread is at its wait for a register write, or has
left it and not had its turn. -/
def StrayAck (e : Step Timer Op Obs) : Prop :=
  Acked e ∧ e.pre.timerintNext = true ∧ (e.pre.timerThread = .disabled ∨ e.pre.timerThread = .leftDisabled)

/-- A turn from the wait for the next count, or a turn that resets. -/
def LowersLine (e : Step Timer Op Obs) : Prop :=
  Turns e ∧ ((∃ c, e.pre.timerThread = .counted c) ∨ e.pre.prstn = false)

/-- The line outlasts the status after a stray acknowledgement, or until a turn that is due. -/
structure LineInv (tr : List (Step Timer Op Obs)) (s : Timer) : Prop where
  flag : s.Stale → s.intrClearInc = true
  stale : Latched StrayAck LowersLine tr → s.Stale
  stray : s.Stale → Latched StrayAck LowersLine tr ∨ ∃ c, s.timerThread = .counted c

theorem not_strayAck (h : ∀ t, e.input = .transport t → ¬ Acknowledges t) : ¬ StrayAck e := by
  rintro ⟨⟨t, ht, ha⟩, -⟩
  exact h t ht ha

theorem not_lowersLine (h : ¬ Turns e) : ¬ LowersLine e := fun hl => h hl.1

namespace LineInv

theorem init (period : Nat) (prstn extin : Bool) : LineInv [] (new period prstn extin) := by
  have hno : ¬ (new period prstn extin).Stale := fun h => Bool.false_ne_true h.1
  exact ⟨fun h => absurd h hno, fun h => absurd h not_latched_nil, fun h => absurd h hno⟩

/-- A step that leaves the interrupt, and a due turn due. -/
theorem congr (hs : LineInv tr s) (hack : ¬ StrayAck e) (hlow : ¬ LowersLine e)
    (hi : s'.intrStatus = s.intrStatus) (hf : s'.intrClearInc = s.intrClearInc)
    (hl : s'.timerintNext = s.timerintNext)
    (ht : (∃ c, s.timerThread = .counted c) → Latched StrayAck LowersLine tr ∨ ∃ c, s'.timerThread = .counted c) :
    LineInv (tr ++ [e]) s' := by
  have hst : s'.Stale ↔ s.Stale := by rw [Stale, Stale, hi, hl]
  have hla : Latched StrayAck LowersLine (tr ++ [e]) ↔ Latched StrayAck LowersLine tr :=
    latched_keep hack hlow
  refine ⟨?_, ?_, ?_⟩
  · rw [hst, hf]
    exact hs.flag
  · rw [hst, hla]
    exact hs.stale
  · rw [hst, hla]
    intro h
    rcases hs.stray h with h | h
    · exact .inl h
    · exact ht h

/-- A move of the inputs or of the kernel. -/
theorem idle (hs : LineInv tr s) (hop : e.input ≠ .timerThread) (ht : ∀ t, e.input ≠ .transport t)
    (hi : s'.intrStatus = s.intrStatus) (hf : s'.intrClearInc = s.intrClearInc)
    (hl : s'.timerintNext = s.timerintNext)
    (hth : (∃ c, s.timerThread = .counted c) → ∃ c, s'.timerThread = .counted c) : LineInv (tr ++ [e]) s' :=
  hs.congr (not_strayAck fun t h => absurd h (ht t)) (not_lowersLine fun h => hop h.1) hi hf hl
    fun h => .inr (hth h)

/-- A turn after which the line is not stale. -/
theorem lowered (hack : ¬ StrayAck e) (hlow : LowersLine e) (hst : ¬ s'.Stale) : LineInv (tr ++ [e]) s' := by
  exact ⟨fun h => absurd h hst, fun h => absurd h (not_latched_of_clears hack hlow), fun h => absurd h hst⟩

/-- An acknowledgement: stray, or with a turn due. -/
theorem ack {t : ApbPayload} (hw : s.WaitInv) (hs : LineInv tr s) (hop : e.input = .transport t)
    (hpre : e.pre = s) (ha : Acknowledges t) (hi : s'.intrStatus = false) (hf : s'.intrClearInc = true)
    (hl : s'.timerintNext = s.timerintNext) (ht : s'.timerThread = s.timerThread.notifyClear) :
    LineInv (tr ++ [e]) s' := by
  have hlow : ¬ LowersLine e := by
    rintro ⟨⟨h, -⟩, -⟩
    rw [hop] at h
    cases h
  refine ⟨fun _ => hf, ?_, ?_⟩
  · intro h
    refine ⟨?_, hi⟩
    rw [hl]
    rcases latched_snoc.1 h with h | ⟨h, -⟩
    · rw [← hpre]
      exact h.2.1
    · exact (hs.stale h).1
  · rintro ⟨hhigh, -⟩
    rw [hl] at hhigh
    have low : s.timerintNext = false → Latched StrayAck LowersLine (tr ++ [e]) ∨
        ∃ c, s'.timerThread = .counted c := fun h => absurd hhigh (ne_true_of_eq_false h)
    have stray : s.timerThread = .disabled ∨ s.timerThread = .leftDisabled → StrayAck e := by
      intro h
      refine ⟨⟨t, hop, ha⟩, ?_⟩
      rw [hpre]
      exact ⟨hhigh, h⟩
    cases h : s.timerThread with
    | start => exact low (hw.start h)
    | inReset => exact low (hw.inReset h).2.2
    | leftReset => exact low (hw.leftReset h)
    | disabled => exact .inl (latched_snoc.2 (.inl (stray (.inl h))))
    | leftDisabled => exact .inl (latched_snoc.2 (.inl (stray (.inr h))))
    | counting w => exact .inr ⟨.clear, by rw [ht, h]; rfl⟩
    | counted c => exact .inr ⟨c, by rw [ht, h]; rfl⟩

theorem not_stale_head (h : HeadMove s s') (hst : ¬ s.Stale) : ¬ s'.Stale := by
  cases h with
  | reset => exact fun h => Bool.false_ne_true h.1
  | disabled | counting => exact hst

/-- The body after the wait for the next count lowers a stale line. -/
theorem not_stale_count (hs : LineInv tr s) (h : CountMove s a o) : ¬ a.Stale := by
  have fresh : s.intrClearInc = false → ¬ s.Stale := by
    intro hf hst
    exact absurd (hs.flag hst) (ne_true_of_eq_false hf)
  cases h with
  | consume => exact fun h => Bool.false_ne_true h.1
  | closed flag => exact fresh flag
  | zero => exact fun h => Bool.false_ne_true h.2.symm
  | down flag => exact fresh flag

/-- A turn from a wait for something else than a count. -/
theorem enter (hs : LineInv tr s)
    (ht : s.timerThread = .start ∨ s.timerThread = .leftReset ∨ s.timerThread = .leftDisabled)
    (hh : HeadMove s s') (hop : e.input = .timerThread) (hpre : e.pre = s) : LineInv (tr ++ [e]) s' := by
  have hack : ¬ StrayAck e := not_strayAck fun t h => Op.noConfusion (hop.symm.trans h)
  have hno : ¬ ∃ c, s.timerThread = .counted c := by
    rintro ⟨c, h⟩
    rw [h] at ht
    rcases ht with h | h | h <;> cases h
  have keeps : s.prstn = true → ¬ LowersLine e := by
    rintro hp ⟨-, h | h⟩
    · exact hno (hpre ▸ h)
    · exact ne_true_of_eq_false h (hpre ▸ hp)
  cases hh with
  | reset low =>
    refine lowered hack ⟨⟨hop, ?_⟩, .inr (hpre ▸ low)⟩ fun h => Bool.false_ne_true h.1
    rw [hpre]
    rcases ht with h | h | h <;> rw [h] <;> rfl
  | disabled high => exact hs.congr hack (keeps high) rfl rfl rfl fun h => absurd h hno
  | counting high => exact hs.congr hack (keeps high) rfl rfl rfl fun h => absurd h hno

theorem of_eq (hs : LineInv tr s) (hi : s'.intrStatus = s.intrStatus) (hf : s'.intrClearInc = s.intrClearInc)
    (hl : s'.timerintNext = s.timerintNext) (ht : s'.timerThread = s.timerThread) : LineInv tr s' := by
  have hst : s'.Stale ↔ s.Stale := by rw [Stale, Stale, hi, hl]
  refine ⟨?_, ?_, ?_⟩ <;> rw [hst]
  · rw [hf]
    exact hs.flag
  · exact hs.stale
  · rw [ht]
    exact hs.stray

theorem step (hw : s.WaitInv) (h : Move s op s' o) (hs : LineInv tr s) :
    LineInv (tr ++ [⟨s, op, s', o⟩]) s' := by
  have waits : s.timerThread.runnable = false → ¬ ∃ c, s.timerThread = .counted c := by
    rintro hr ⟨c, h⟩
    exact TimerThread.ne_counted hr c h
  cases h with
  | bus t h =>
    rcases h.acks with ⟨ha, rfl⟩ | ⟨hna, hi, hf, hl, ht⟩
    · exact hs.ack hw rfl rfl ha rfl rfl rfl rfl
    · refine hs.congr (not_strayAck ?_) (not_lowersLine fun h => Op.noConfusion h.1) hi hf hl ?_
      · intro t' h
        cases h
        exact hna
      · exact fun ⟨c, hc⟩ => .inr ⟨c, ht c hc⟩
  | prstn level | extin level => exact hs.idle (by simp) (by simp) rfl rfl rfl id
  | waiting hr =>
    refine hs.congr (not_strayAck fun t h => Op.noConfusion h) (not_lowersLine fun h => ?_) rfl rfl rfl .inr
    exact absurd h.2 (ne_true_of_eq_false hr)
  | enter ht hh => exact (hs.enter ht hh rfl rfl).of_eq rfl rfl rfl rfl
  | count c ht hc hh =>
    have hst := not_stale_head hh (hs.not_stale_count hc)
    exact lowered (not_strayAck fun t h => Op.noConfusion h) ⟨turns_count ht, .inl ⟨c, ht⟩⟩ hst
  | delta hr => exact hs.idle (by simp) (by simp) rfl rfl rfl fun h => absurd h (waits hr)
  | advance time settled => exact hs.idle (by simp) (by simp) rfl rfl rfl fun h => absurd h (waits settled.2.1)
  | timeout since ht => exact hs.idle (by simp) (by simp) rfl rfl rfl fun _ => ⟨_, rfl⟩

theorem of_run {period : Nat} {prstn extin : Bool} {is : List Op}
    (h : Run (traced machine) (new period prstn extin) is tr s) : s.WaitInv ∧ LineInv tr s :=
  h.trace (fun tr s => s.WaitInv ∧ LineInv tr s) ⟨rfl, init period prstn extin⟩
    fun _ _ _ _ _ hi hs => ⟨hs.1.step (machine_move hi), hs.2.step hs.1 (machine_move hi)⟩

/-- With nothing left to run, the line is stale iff a stray acknowledgement left it so. -/
theorem stale_iff (hs : LineInv tr s) (settled : s.Settled) : s.Stale ↔ Latched StrayAck LowersLine tr := by
  refine ⟨fun h => (hs.stray h).resolve_right ?_, hs.stale⟩
  rintro ⟨c, hc⟩
  exact TimerThread.ne_counted settled.2.1 c hc

end LineInv

/-- The counter crosses zero. -/
def Crosses (e : Step Timer Op Obs) : Prop := ∃ time, .counted time true ∈ e.obs

theorem HeadMove.intrStatus (h : HeadMove s s') (hi : s.intrStatus = false) : s'.intrStatus = false := by
  cases h with
  | reset => rfl
  | disabled | counting => exact hi

theorem intrStatus_of_not_crosses (h : Move s op s' o) (hc : ¬ Crosses ⟨s, op, s', o⟩)
    (hi : s.intrStatus = false) : s'.intrStatus = false := by
  cases h with
  | bus t h =>
    rcases h.acks with ⟨-, rfl⟩ | ⟨-, hi', -⟩
    · rfl
    · exact hi'.trans hi
  | @enter b _ hh =>
    have hb : b.intrStatus = false := hh.intrStatus hi
    exact hb
  | @count a b _ c _ hcm hh =>
    have ha : a.intrStatus = false := by
      cases hcm with
      | consume | closed | down => exact hi
      | zero => exact absurd ⟨s.now, List.mem_singleton_self _⟩ hc
    have hb : b.intrStatus = false := hh.intrStatus ha
    exact hb
  | prstn | extin | waiting | delta | advance | timeout => exact hi

theorem intrStatus_of_acked (h : Move s op s' o) (ha : Acked ⟨s, op, s', o⟩) : s'.intrStatus = false := by
  obtain ⟨t, hop, ha⟩ := ha
  obtain rfl : op = .transport t := hop
  cases h with
  | bus _ h =>
    rcases h.acks with ⟨-, rfl⟩ | ⟨hna, -⟩
    · rfl
    · exact absurd ha hna

/-- The status stays clear until the counter crosses zero. -/
theorem intrStatus_of_run {is : List Op} (h : Run (traced machine) s is tr s') (hi : s.intrStatus = false)
    (hno : ∀ e ∈ tr, ¬ Crosses e) : s'.intrStatus = false := by
  refine h.trace (fun tr s => (∀ e ∈ tr, ¬ Crosses e) → s.intrStatus = false) (fun _ => hi) ?_ hno
  intro tr a i b o hm ih hno
  rw [List.forall_mem_append, List.forall_mem_singleton] at hno
  exact intrStatus_of_not_crosses (machine_move hm) hno.2 (ih hno.1)

/-- The line is high only if the status is set; and after an acknowledgement it is low, until the counter
crosses zero. -/
structure LineFollows (tr : List (Step Timer Op Obs)) (s : Timer) : Prop where
  status : s.timerint = true → s.intrStatus = true
  acked : ∀ tr₁ e tr₂, tr = tr₁ ++ e :: tr₂ → Acked e → (∀ f ∈ tr₂, ¬ Crosses f) → s.timerint = false

end Timer

open Timer

/-- When the interrupt line follows the status. In a settled state the line is high only with the status set,
and low after an acknowledgement since which the counter has not crossed zero, iff no acknowledgement has come
with the line driven high while the thread was at its wait for a register write, with no turn since that was
from the wait for the next count or reset the timer. -/
theorem timer_line_iff (period : Nat) (prstn extin : Bool) (is : List Op) (tr : List (Step Timer Op Obs))
    (s : Timer) (hrun : Run (traced machine) (new period prstn extin) is tr s) (settled : s.Settled) :
    LineFollows tr s ↔ ¬ Latched StrayAck LowersLine tr := by
  have hline : s.timerint = s.timerintNext := settled.2.2.2.2.2
  rw [← (LineInv.of_run hrun).2.stale_iff settled]
  constructor
  · rintro h ⟨hhigh, hclear⟩
    exact absurd (h.status (hline.trans hhigh)) (ne_true_of_eq_false hclear)
  · intro hst
    have status : s.timerint = true → s.intrStatus = true := by
      intro h
      rw [hline] at h
      exact Bool.not_eq_false _ ▸ fun hc => hst ⟨h, hc⟩
    refine ⟨status, ?_⟩
    rintro tr₁ e tr₂ rfl hack hno
    obtain ⟨is₁, is₂, -, -, hm, hpost⟩ := hrun.split
    have hclear := intrStatus_of_run hpost (intrStatus_of_acked (machine_move hm) hack) hno
    refine Bool.eq_false_iff.2 fun h => ?_
    exact absurd (status h) (ne_true_of_eq_false hclear)

/-- The counter crosses zero with INTR_EN set; CTRL is written 0; then the interrupt is acknowledged. -/
def ackWhileDisabled : List Op :=
  [.timerThread, .transport ⟨⟨.write, 0x08, some [5, 0, 0, 0], 4, .incomplete, false⟩, none, 4⟩,
    .transport ⟨⟨.write, 0x04, some [0, 0, 0, 0], 4, .incomplete, false⟩, none, 4⟩,
    .transport ⟨⟨.write, 0x00, some [9, 0, 0, 0], 4, .incomplete, false⟩, none, 4⟩, .timerThread, .delta,
    .advance 20000, .timerThread, .delta,
    .transport ⟨⟨.write, 0x00, some [0, 0, 0, 0], 4, .incomplete, false⟩, none, 4⟩, .timerThread, .delta,
    .transport ⟨⟨.write, 0x0C, some [1, 0, 0, 0], 4, .incomplete, false⟩, none, 4⟩, .delta]

theorem run_ackWhileDisabled : ∃ tr s, Run (traced machine) (new 20000 true true) ackWhileDisabled tr s ∧
    s.Settled ∧ s.timerint = true ∧ s.intrStatus = false := by
  have hx : (exec (traced machine) (new 20000 true true) ackWhileDisabled).map (fun r =>
      decide (r.1.Settled ∧ r.1.timerint = true ∧ r.1.intrStatus = false)) = some true := by decide +kernel
  obtain ⟨⟨s, tr⟩, he, hs⟩ := Option.map_eq_some_iff.1 hx
  exact ⟨tr, s, Run.of_exec he, of_decide_eq_true hs⟩

theorem timer_line_iff_ackWhileDisabled : ∃ tr s,
    Run (traced machine) (new 20000 true true) ackWhileDisabled tr s ∧ s.Settled ∧
      Latched StrayAck LowersLine tr := by
  obtain ⟨tr, s, hrun, settled, hhigh, hclear⟩ := run_ackWhileDisabled
  refine ⟨tr, s, hrun, settled, not_not.1 fun hno => ?_⟩
  have hs := (timer_line_iff 20000 true true ackWhileDisabled tr s hrun settled).2 hno
  exact absurd (hs.status hhigh) (ne_true_of_eq_false hclear)

/-- The line stays high after the acknowledgement. -/
theorem not_lineFollows_ackWhileDisabled : ¬ ∀ (period : Nat) (prstn extin : Bool) (is : List Op)
    (tr : List (Step Timer Op Obs)) (s : Timer),
    Run (traced machine) (new period prstn extin) is tr s → s.Settled → LineFollows tr s := by
  intro h
  obtain ⟨tr, s, hrun, settled, hhigh, hclear⟩ := run_ackWhileDisabled
  have hs := h 20000 true true ackWhileDisabled tr s hrun settled
  exact absurd (hs.status hhigh) (ne_true_of_eq_false hclear)

end CdcVp
