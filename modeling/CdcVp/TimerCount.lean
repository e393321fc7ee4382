import CdcVp.TimerWait

/-!
# What the timer counts

`Clocked` reads off the steps that the wait for the next count was ended by the clock: a full tick after the
thread began to wait, or a rising edge of `extin`. The wait also ends when a register is written, and the body
after it does not tell which: with the gate open it counts. `Spurious` is that turn.
-/

namespace CdcVp
open FlatStore LittleEndian Runs

namespace Timer
variable {s s' a : Timer} {op : Op} {o : List Obs} {tr : List (Step Timer Op Obs)} {e : Step Timer Op Obs}
variable {since : Nat}

/-! ### The clock -/

/-- The thread begins to wait for a tick. -/
def Starts (since : Nat) (e : Step Timer Op Obs) : Prop :=
  Turns e ∧ e.post.prstn = true ∧ e.post.enabled = true ∧ e.post.exClk = false ∧ e.post.now = since

/-- The thread has its turn, or a write reaches it. -/
def Interrupts (e : Step Timer Op Obs) : Prop :=
  Turns e ∨ ∃ t, e.input = .transport t ∧ (Updates t ∨ Acknowledges t)

/-- The kernel comes to the end of a tick that nothing has interrupted. -/
def Ticks (tr : List (Step Timer Op Obs)) (e : Step Timer Op Obs) : Prop :=
  (e.input = .delta ∨ ∃ time, e.input = .advance time) ∧
    ∃ since, Latched (Starts since) Interrupts tr ∧ e.post.now = since + e.pre.tickPeriod

/-- A rising edge of `extin`, with ENABLE and EX_CLK set. -/
def Rises (e : Step Timer Op Obs) : Prop :=
  e.input = .delta ∧ e.pre.prstn = true ∧ e.pre.enabled = true ∧ e.pre.exClk = true ∧
    e.pre.extin = false ∧ e.post.extin = true

def Clocks (tr : List (Step Timer Op Obs)) (e : Step Timer Op Obs) : Prop := Ticks tr e ∨ Rises e

/-- The clock has had its event since the thread last had its turn. -/
def Clocked (tr : List (Step Timer Op Obs)) : Prop := LatchedAt Clocks Turns tr

/-- The thread waits for a tick since it began to and until something interrupts it; it is woken by the clock
iff the clock had its event. -/
structure CountInv (tr : List (Step Timer Op Obs)) (s : Timer) : Prop where
  started : ∀ since, s.timerThread = .counting (.tick since) → Latched (Starts since) Interrupts tr
  waits : ∀ since, Latched (Starts since) Interrupts tr →
    s.timerThread = .counting (.tick since) ∨ s.timerThread = .counted .timeout ∨
      s.timerThread = .counted .negedge
  clocked : Clocked tr ↔ s.timerThread = .counted .timeout ∨ s.timerThread = .counted .extin

theorem not_clocks (hd : e.input ≠ .delta) (ha : ∀ time, e.input ≠ .advance time) : ¬ Clocks tr e := by
  rintro (⟨h | ⟨time, h⟩, -⟩ | ⟨h, -⟩)
  · exact hd h
  · exact ha time h
  · exact hd h

theorem not_turns (h : e.input ≠ .timerThread) : ¬ Turns e := fun ht => h ht.1

theorem not_interrupts (h : e.input ≠ .timerThread) (ht : ∀ t, e.input ≠ .transport t) : ¬ Interrupts e := by
  rintro (hi | ⟨t, hi, -⟩)
  · exact h hi.1
  · exact ht t hi

theorem latched_starts_snoc (hi : ¬ Interrupts e) :
    Latched (Starts since) Interrupts (tr ++ [e]) ↔ Latched (Starts since) Interrupts tr :=
  latched_keep (fun h => hi (.inl h.1)) hi

theorem clocked_snoc (hc : ¬ Clocks tr e) (ht : ¬ Turns e) : Clocked (tr ++ [e]) ↔ Clocked tr :=
  latchedAt_keep hc ht

namespace CountInv

theorem init (period : Nat) (prstn extin : Bool) : CountInv [] (new period prstn extin) := by
  refine ⟨?_, ?_, ?_⟩
  · intro since h
    cases h
  · intro since h
    exact absurd h not_latched_nil
  · refine iff_of_false not_latchedAt_nil ?_
    rintro (h | h) <;> cases h

/-- A step that leaves the thread where it is. -/
theorem congr (hs : CountInv tr s) (ht : s'.timerThread = s.timerThread) (hi : ¬ Interrupts e)
    (hc : ¬ Clocks tr e) : CountInv (tr ++ [e]) s' := by
  refine ⟨?_, ?_, ?_⟩
  · intro since h
    rw [ht] at h
    exact (latched_starts_snoc hi).2 (hs.started since h)
  · intro since h
    rw [ht]
    exact hs.waits since ((latched_starts_snoc hi).1 h)
  · rw [clocked_snoc hc fun h => hi (.inl h), ht]
    exact hs.clocked

theorem of_eq (hs : CountInv tr s) (ht : s'.timerThread = s.timerThread) : CountInv tr s' :=
  ⟨ht ▸ hs.started, ht ▸ hs.waits, ht ▸ hs.clocked⟩

/-- A write that reaches the thread ends its wait, and is no event of the clock. -/
theorem write {t : ApbPayload} {f : TimerThread → TimerThread} (hs : CountInv tr s)
    (ht : s'.timerThread = f s.timerThread) (hop : e.input = .transport t) (hu : Updates t ∨ Acknowledges t)
    (hno : ∀ w u, f u ≠ .counting w)
    (hf : ∀ c u, c ≠ .update → c ≠ .clear → (f u = .counted c ↔ u = .counted c)) :
    CountInv (tr ++ [e]) s' := by
  have hi : Interrupts e := .inr ⟨t, hop, hu⟩
  have hturn : ¬ Turns e := not_turns (by rw [hop]; exact Op.noConfusion)
  refine ⟨?_, ?_, ?_⟩
  · intro since h
    rw [ht] at h
    exact absurd h (hno _ _)
  · exact fun since h => absurd h (not_latched_of_clears (fun h => hturn h.1) hi)
  · rw [clocked_snoc (not_clocks (by simp [hop]) (by simp [hop])) hturn, ht, hf _ _ (by simp) (by simp),
      hf _ _ (by simp) (by simp)]
    exact hs.clocked

theorem bus {t : ApbPayload} (hop : e.input = .transport t) (h : BusMove s t s' o) (hs : CountInv tr s) :
    CountInv (tr ++ [e]) s' := by
  have update : ∀ c u, c ≠ .update → c ≠ .clear → (TimerThread.notifyUpdate u = .counted c ↔ u = .counted c) := by
    intro c u hu hc
    cases u <;> simp [TimerThread.notifyUpdate, hu.symm]
  have clear : ∀ c u, c ≠ .update → c ≠ .clear → (TimerThread.notifyClear u = .counted c ↔ u = .counted c) := by
    intro c u hu hc
    cases u <;> simp [TimerThread.notifyClear, hc.symm]
  have quiet : ¬ Updates t → ¬ Acknowledges t → ¬ Interrupts e := by
    rintro hu ha (h | ⟨t', h, h' | h'⟩)
    · exact not_turns (by rw [hop]; exact Op.noConfusion) h
    all_goals
      rw [hop] at h
      cases h
    · exact hu h'
    · exact ha h'
  have noClock : ¬ Clocks tr e := not_clocks (by simp [hop]) (by simp [hop])
  cases h with
  | quiet hu ha => exact hs.congr rfl (quiet hu ha) noClock
  | read v ht =>
    refine hs.congr rfl (quiet ?_ ?_) noClock
    · rintro ⟨data, h | h | h⟩ <;> exact h.1 ht
    · rintro ⟨data, h, -⟩
      exact h.1 ht
  | ctrl data ht =>
    refine hs.write rfl hop (.inl ⟨data, .inl ht⟩) (fun w u => ?_) update
    cases u <;> exact TimerThread.noConfusion
  | value data ht =>
    refine hs.write rfl hop (.inl ⟨data, .inr (.inl ht)⟩) (fun w u => ?_) update
    cases u <;> exact TimerThread.noConfusion
  | reload data ht =>
    refine hs.write rfl hop (.inl ⟨data, .inr (.inr ht)⟩) (fun w u => ?_) update
    cases u <;> exact TimerThread.noConfusion
  | ack ht =>
    refine hs.write rfl hop (.inr ht) (fun w u => ?_) clear
    cases u <;> exact TimerThread.noConfusion

/-- A turn: the thread waits again. -/
theorem turn (ht : Turns e) (hh : HeadMove a s) (he : e.post = { s with evaluating := true }) :
    CountInv (tr ++ [e]) { s with evaluating := true } := by
  have noClock : ¬ Clocks tr e := not_clocks (by simp [ht.1]) (by simp [ht.1])
  refine ⟨?_, ?_, ?_⟩
  · intro since h
    refine latched_snoc.2 (.inl ⟨ht, ?_⟩)
    rw [he]
    cases hh with
    | reset => cases h
    | disabled => cases h
    | counting high on =>
      cases hx : a.exClk with
      | true => simp [hx] at h
      | false =>
        simp only [hx, Bool.false_eq_true, if_false, TimerThread.counting.injEq, CountWait.tick.injEq] at h
        exact ⟨high, on, hx, h⟩
  · intro since h
    obtain ⟨-, hp, hen, hx, hnow⟩ := (latched_of_clears (.inl ht)).1 h
    rw [he] at hp hen hx hnow
    cases hh with
    | reset low => exact absurd hp (ne_true_of_eq_false low)
    | disabled high off => exact absurd hen (ne_true_of_eq_false off)
    | counting high on =>
      have hx : a.exClk = false := hx
      have hnow : a.now = since := hnow
      left
      simp [hx, hnow]
  · refine iff_of_false (not_latchedAt_of_clears noClock ht) ?_
    · cases hh with
      | reset | disabled | counting => rintro (h | h) <;> cases h

theorem not_clocked (hs : CountInv tr s) (hr : s.timerThread.runnable = false) : ¬ Clocked tr := by
  intro h
  rcases hs.clocked.1 h with h | h
  · exact TimerThread.ne_counted hr _ h
  · exact TimerThread.ne_counted hr _ h

/-- While the kernel has nothing to run, the thread waits for the tick it began to wait for. -/
theorem waiting (hs : CountInv tr s) (hr : s.timerThread.runnable = false)
    (h : Latched (Starts since) Interrupts tr) : s.timerThread = .counting (.tick since) := by
  rcases hs.waits since h with h | h | h
  · exact h
  · exact absurd h (TimerThread.ne_counted hr _)
  · exact absurd h (TimerThread.ne_counted hr _)

/-- The end of a delta cycle wakes the thread from a tick that is over, or by an edge. -/
theorem delta (hw : s.WaitInv) (hs : CountInv tr s) (hr : s.timerThread.runnable = false) :
    CountInv (tr ++ [⟨s, .delta, s.deltaCycle, o⟩]) s.deltaCycle := by
  have hi : ¬ Interrupts ⟨s, .delta, s.deltaCycle, o⟩ := not_interrupts (by simp) (by simp)
  refine ⟨?_, ?_, ?_⟩
  · intro since h
    exact (latched_starts_snoc hi).2 (hs.started since (TimerThread.delta_eq_tick h))
  · intro since h
    have ht := hs.waiting hr ((latched_starts_snoc hi).1 h)
    show s.timerThread.delta _ _ _ _ _ = _ ∨ s.timerThread.delta _ _ _ _ _ = _ ∨
      s.timerThread.delta _ _ _ _ _ = _
    rw [ht, TimerThread.delta_tick]
    split_ifs <;> simp
  · refine latchedAt_snoc.trans ((or_iff_left fun h => hs.not_clocked hr h.1).trans (or_congr ?_ ?_))
    · refine Iff.trans ?_ (TimerThread.delta_eq_timeout hr).symm
      constructor
      · rintro ⟨-, since, hl, hnow⟩
        exact ⟨since, hs.waiting hr hl, hnow.ge⟩
      · rintro ⟨since, ht, hle⟩
        exact ⟨.inl rfl, since, (hs.started since ht), Nat.le_antisymm (hw.tick ht).2.2.2 hle⟩
    · refine Iff.trans ?_ (TimerThread.delta_eq_extin hr).symm
      constructor
      · rintro ⟨-, hp, he, hx, hlow, hhigh⟩
        refine ⟨?_, by rw [show s.extin = false from hlow, show s.extinNext = true from hhigh]; rfl⟩
        exact hw.waits_clock hr hp he hx
      · rintro ⟨ht, hedge⟩
        obtain ⟨hp, he, hx⟩ := hw.clock ht
        rw [Bool.and_eq_true, Bool.not_eq_true'] at hedge
        exact ⟨rfl, hp, he, hx, hedge.1, hedge.2⟩

/-- Time passes short of the end of the tick. -/
theorem advance {time : Nat} (hs : CountInv tr s) (settled : s.Settled)
    (hno : ∀ since, s.timerThread = .counting (.tick since) → time < since + s.tickPeriod) :
    CountInv (tr ++ [⟨s, .advance time, { s with now := time }, o⟩]) { s with now := time } := by
  refine hs.congr rfl (not_interrupts (by simp) (by simp)) ?_
  rintro (⟨-, since, hl, hnow⟩ | ⟨h, -⟩)
  · exact absurd hnow (hno since (hs.waiting settled.2.1 hl)).ne
  · cases h

/-- Time passes to the end of the tick. -/
theorem timeout (hs : CountInv tr s) (ht : s.timerThread = .counting (.tick since)) :
    CountInv (tr ++ [⟨s, .advance (since + s.tickPeriod),
      { s with now := since + s.tickPeriod, timerThread := .counted .timeout }, o⟩])
      { s with now := since + s.tickPeriod, timerThread := .counted .timeout } := by
  refine ⟨?_, ?_, ?_⟩
  · intro since' h
    cases h
  · exact fun since' _ => .inr (.inl rfl)
  · refine iff_of_true (latchedAt_snoc.2 (.inl (.inl ⟨.inr ⟨_, rfl⟩, since, hs.started since ht, rfl⟩))) ?_
    exact .inl rfl

theorem step (hw : s.WaitInv) (h : Move s op s' o) (hs : CountInv tr s) :
    CountInv (tr ++ [⟨s, op, s', o⟩]) s' := by
  cases h with
  | bus t h => exact (hs.bus (e := ⟨s, .transport t, _, o⟩) rfl h).of_eq rfl
  | prstn level | extin level =>
    exact hs.congr rfl (not_interrupts (by simp) (by simp)) (not_clocks (by simp) (by simp))
  | waiting hr =>
    refine hs.congr rfl ?_ (not_clocks (by simp) (by simp))
    rintro (⟨-, h⟩ | ⟨t, h, -⟩)
    · exact absurd h (ne_true_of_eq_false hr)
    · cases h
  | enter ht hh => exact turn (turns_enter ht) hh rfl
  | count c ht _ hh => exact turn (turns_count ht) hh rfl
  | delta hr => exact hs.delta hw hr
  | advance time settled _ hno => exact hs.advance settled hno
  | timeout since ht => exact hs.timeout ht

theorem of_run {period : Nat} {prstn extin : Bool} {is : List Op}
    (h : Run (traced machine) (new period prstn extin) is tr s) : s.WaitInv ∧ CountInv tr s :=
  h.trace (fun tr s => s.WaitInv ∧ CountInv tr s) ⟨rfl, init period prstn extin⟩
    fun _ _ _ _ _ hi hs => ⟨hs.1.step (machine_move hi), hs.2.step hs.1 (machine_move hi)⟩

end CountInv

/-! ### What changes the counter -/

/-- An accepted write of VALUE or RELOAD. -/
def Loads (e : Step Timer Op Obs) (data : UInt32) : Prop :=
  ∃ t, e.input = .transport t ∧ (Writes t addrValue data ∨ Writes t addrReload data)

/-- A count event: the clock has had its event, and `extin` is high if EX_EN is set. -/
def CountEvent (tr : List (Step Timer Op Obs)) (e : Step Timer Op Obs) : Prop :=
  Turns e ∧ Clocked tr ∧ e.pre.gated = false

/-- The counter decrements or, at zero, reloads and sets the status. -/
def Decrements (e : Step Timer Op Obs) : Prop :=
  if e.pre.valueReg = 0 then e.post.valueReg = e.pre.reloadReg ∧ e.post.intrStatus = true
  else e.post.valueReg = e.pre.valueReg - 1 ∧ e.post.intrStatus = e.pre.intrStatus

/-- The step keeps the counter and sets no status, or it is a write, or a count event. -/
def Explained (tr : List (Step Timer Op Obs)) (e : Step Timer Op Obs) : Prop :=
  (e.post.valueReg = e.pre.valueReg ∧ (e.post.intrStatus = true → e.pre.intrStatus = true)) ∨
    (∃ data, Loads e data ∧ e.post.valueReg = data ∧ e.post.intrStatus = e.pre.intrStatus) ∨
    (CountEvent tr e ∧ Decrements e)

/-- While `prstn` is high the counter changes by writes and count events only, and what was written last reads
back until a count event. -/
structure CountsOnClock (tr : List (Step Timer Op Obs)) (s : Timer) : Prop where
  changes : ∀ tr₁ e tr₂, tr = tr₁ ++ e :: tr₂ → e.pre.prstn = true → Explained tr₁ e
  readBack : ∀ tr₁ w tr₂ data, tr = tr₁ ++ w :: tr₂ → Loads w data →
    (∀ tr₃ e tr₄, tr₂ = tr₃ ++ e :: tr₄ →
      e.pre.prstn = true ∧ (∀ data, ¬ Loads e data) ∧ ¬ CountEvent (tr₁ ++ w :: tr₃) e) →
    s.readReg addrValue = some data

/-- A turn after a write ended the wait for the next count, that counts: no flag of an acknowledgement is up
and the gate is open. With VALUE and RELOAD zero and the status set, the count changes nothing. -/
def Spurious (e : Step Timer Op Obs) : Prop :=
  e.pre.prstn = true ∧ e.input = .timerThread ∧ e.pre.timerThread = .counted .update ∧
    e.pre.intrClearInc = false ∧ e.pre.gated = false ∧
    ¬ (e.pre.valueReg = 0 ∧ e.pre.reloadReg = 0 ∧ e.pre.intrStatus = true)

instance : DecidablePred Spurious := fun _ => inferInstanceAs (Decidable (_ ∧ _))

theorem BusMove.loads {t : ApbPayload} (h : BusMove s t s' o) :
    (s'.valueReg = s.valueReg ∧ (s'.intrStatus = true → s.intrStatus = true)) ∨
      ∃ data, (Writes t addrValue data ∨ Writes t addrReload data) ∧ s'.valueReg = data ∧
        s'.intrStatus = s.intrStatus := by
  cases h with
  | quiet | read | ctrl => exact .inl ⟨rfl, id⟩
  | value data ht => exact .inr ⟨data, .inl ht, rfl, rfl⟩
  | reload data ht => exact .inr ⟨data, .inr ht, rfl, rfl⟩
  | ack => exact .inl ⟨rfl, fun h => (Bool.false_ne_true h).elim⟩

theorem HeadMove.values (h : HeadMove s s') (hp : s.prstn = true) :
    s'.valueReg = s.valueReg ∧ s'.intrStatus = s.intrStatus := by
  cases h with
  | reset low => exact absurd hp (ne_true_of_eq_false low)
  | disabled | counting => exact ⟨rfl, rfl⟩

/-- The body after the wait for the next count: it counts where it finds the gate open and no flag. -/
theorem CountMove.values (h : CountMove s s' o) :
    (s'.valueReg = s.valueReg ∧ s'.intrStatus = s.intrStatus) ∨
      s.intrClearInc = false ∧ s.gated = false ∧
        if s.valueReg = 0 then s'.valueReg = s.reloadReg ∧ s'.intrStatus = true
        else s'.valueReg = s.valueReg - 1 ∧ s'.intrStatus = s.intrStatus := by
  cases h with
  | consume => exact .inl ⟨rfl, rfl⟩
  | closed => exact .inl ⟨rfl, rfl⟩
  | zero hf hg h0 =>
    rw [if_pos h0]
    exact .inr ⟨hf, hg, rfl, rfl⟩
  | down hf hg h0 =>
    rw [if_neg h0]
    exact .inr ⟨hf, hg, rfl, rfl⟩

/-- A turn that counts, and what woke the thread. -/
theorem explained_count {c : Cause} (hw : s.WaitInv) (hs : CountInv tr s) (ht : s.timerThread = .counted c)
    (hc : CountMove s a o) (hh : HeadMove a s') (hp : s.prstn = true)
    (hno : ¬ Spurious ⟨s, .timerThread, { s' with evaluating := true }, o⟩) :
    Explained tr ⟨s, .timerThread, { s' with evaluating := true }, o⟩ := by
  obtain ⟨hv, hi⟩ := hh.values (hc.prstn.trans hp)
  rcases hc.values with ⟨hv', hi'⟩ | ⟨hf, hg, hd⟩
  · exact .inl ⟨hv.trans hv', (hi.trans hi').le⟩
  rw [← hv, ← hi] at hd
  cases c with
  | timeout => exact .inr (.inr ⟨⟨turns_count ht, hs.clocked.2 (.inl ht), hg⟩, hd⟩)
  | extin => exact .inr (.inr ⟨⟨turns_count ht, hs.clocked.2 (.inr ht), hg⟩, hd⟩)
  | update =>
    by_cases h0 : s.valueReg = 0 ∧ s.reloadReg = 0 ∧ s.intrStatus = true
    · rw [if_pos h0.1] at hd
      exact .inl ⟨hd.1.trans (h0.2.1.trans h0.1.symm), fun _ => h0.2.2⟩
    · exact absurd ⟨hp, rfl, ht, hf, hg, h0⟩ hno
  | clear => exact absurd (hw.clear ht).2 (ne_true_of_eq_false hf)
  | negedge => exact absurd hp (ne_true_of_eq_false (hw.negedge ht))

theorem explained (hw : s.WaitInv) (hs : CountInv tr s) (h : Move s op s' o) (hp : s.prstn = true)
    (hno : ¬ Spurious ⟨s, op, s', o⟩) : Explained tr ⟨s, op, s', o⟩ := by
  cases h with
  | bus t h =>
    rcases h.loads with h | ⟨data, ht, hv, hi⟩
    · exact .inl h
    · exact .inr (.inl ⟨data, ⟨t, rfl, ht⟩, hv, hi⟩)
  | enter _ hh => exact .inl ⟨(hh.values hp).1, (hh.values hp).2.le⟩
  | count c ht hc hh => exact explained_count hw hs ht hc hh hp hno
  | prstn | extin | waiting | delta | advance | timeout => exact .inl ⟨rfl, id⟩

/-- A spurious count has no explanation. -/
theorem not_explained (hs : CountInv tr s) (h : Move s op s' o) (he : Spurious ⟨s, op, s', o⟩) :
    ¬ Explained tr ⟨s, op, s', o⟩ := by
  obtain ⟨hp, hop, ht, hf, hg, hne⟩ := he
  obtain rfl : op = .timerThread := hop
  have ht : s.timerThread = .counted .update := ht
  rintro (⟨hv, hi⟩ | ⟨data, ⟨t, h, -⟩, -⟩ | ⟨⟨-, hc, -⟩, -⟩)
  · cases h with
    | waiting hr => exact TimerThread.ne_counted hr _ ht
    | enter h _ =>
      rw [ht] at h
      rcases h with h | h | h <;> cases h
    | count c _ hc hh =>
      obtain ⟨hv', hi'⟩ := hh.values (hc.prstn.trans hp)
      have hv := hv'.symm.trans hv
      cases hc with
      | consume flag => exact absurd flag (ne_true_of_eq_false hf)
      | closed _ gated => exact absurd gated (ne_true_of_eq_false hg)
      | zero _ _ h0 => exact hne ⟨h0, hv.trans h0, hi hi'⟩
      | down _ _ h0 =>
        have h1 : (1 : UInt32) = 0 := UInt32.left_eq_add.1 (UInt32.sub_eq_iff_eq_add.1 hv)
        exact absurd h1 (by decide)
  · cases h
  · rcases hs.clocked.1 hc with h | h <;> rw [ht] at h <;> cases h

theorem BusMove.valueReg_of_loads {t : ApbPayload} {data : UInt32} (h : BusMove s t s' o)
    (hw : Writes t addrValue data ∨ Writes t addrReload data) : s'.valueReg = data := by
  have hadr : t.address ≠ addrCtrl ∧ t.address ≠ addrIntStatus := by
    rcases hw with ⟨-, h, -⟩ | ⟨-, h, -⟩ <;> rw [h] <;> decide
  have hdata : ∀ d, wordOf t = some d → d = data := by
    intro d hd
    rcases hw with ⟨-, -, h⟩ | ⟨-, -, h⟩ <;> exact Option.some.inj (hd.symm.trans h)
  cases h with
  | quiet hu ha => exact absurd ⟨data, .inr hw⟩ hu
  | read v ht => rcases hw with h | h <;> exact absurd ht h.1
  | ctrl d ht => exact absurd ht.2.1 hadr.1
  | value d ht => exact hdata d ht.2.2
  | reload d ht => exact hdata d ht.2.2
  | ack ht =>
    obtain ⟨d, ht, -⟩ := ht
    exact absurd ht.2.1 hadr.2

theorem valueReg_of_loads {data : UInt32} (h : Move s op s' o) (hl : Loads ⟨s, op, s', o⟩ data) :
    s'.valueReg = data := by
  obtain ⟨t, hop, hw⟩ := hl
  obtain rfl : op = .transport t := hop
  cases h with
  | bus _ h => exact h.valueReg_of_loads hw

/-- What was written stays, by induction on the steps since. -/
theorem valueReg_kept {period : Nat} {prstn extin : Bool} {is : List Op} {w : Step Timer Op Obs}
    {data : UInt32} {tr₁ tr₂ : List (Step Timer Op Obs)}
    (hrun : Run (traced machine) (new period prstn extin) is (tr₁ ++ w :: tr₂) s) (hl : Loads w data)
    (hchanges : ∀ tr₃ e tr₄, tr₂ = tr₃ ++ e :: tr₄ → e.pre.prstn = true → Explained (tr₁ ++ w :: tr₃) e)
    (hno : ∀ tr₃ e tr₄, tr₂ = tr₃ ++ e :: tr₄ →
      e.pre.prstn = true ∧ (∀ data, ¬ Loads e data) ∧ ¬ CountEvent (tr₁ ++ w :: tr₃) e) :
    s.valueReg = data := by
  induction tr₂ using List.reverseRecOn generalizing is s with
  | nil =>
    obtain ⟨is₁, -, hm, rfl⟩ := hrun.last
    exact valueReg_of_loads (machine_move hm) hl
  | append_singleton tr₂ e ih =>
    rw [← List.cons_append, ← List.append_assoc] at hrun
    obtain ⟨is₁, hpre, hm, rfl⟩ := hrun.last
    obtain ⟨hp, hnl, hnc⟩ := hno tr₂ e [] rfl
    have before : e.pre.valueReg = data := by
      refine ih hpre ?_ ?_
      · rintro tr₃ f tr₄ rfl
        exact hchanges tr₃ f (tr₄ ++ [e]) (by simp)
      · rintro tr₃ f tr₄ rfl
        exact hno tr₃ f (tr₄ ++ [e]) (by simp)
    rcases hchanges tr₂ e [] rfl hp with ⟨hv, -⟩ | ⟨d, hd, -⟩ | ⟨hc, -⟩
    · exact hv.trans before
    · exact absurd hd (hnl d)
    · exact absurd hc hnc

end Timer

open Timer

/-- When the timer counts on clock events only. In a run the counter changes, while `prstn` is high, only by
writes of VALUE and RELOAD and by count events, and what was written last reads back until a count event, iff
no turn of the run counts because a write ended the wait for the next count. -/
theorem timer_counts_iff (period : Nat) (prstn extin : Bool) (is : List Op)
    (tr : List (Step Timer Op Obs)) (s : Timer)
    (hrun : Run (traced machine) (new period prstn extin) is tr s) :
    CountsOnClock tr s ↔ ∀ e ∈ tr, ¬ Spurious e := by
  constructor
  · intro h e he hsp
    obtain ⟨tr₁, tr₂, rfl⟩ := List.append_of_mem he
    obtain ⟨is₁, is₂, -, hpre, hm, -⟩ := hrun.split
    exact not_explained (CountInv.of_run hpre).2 (machine_move hm) hsp (h.changes tr₁ e tr₂ rfl hsp.1)
  · intro hno
    have changes : ∀ tr₁ e tr₂, tr = tr₁ ++ e :: tr₂ → e.pre.prstn = true → Explained tr₁ e := by
      rintro tr₁ e tr₂ rfl hp
      obtain ⟨is₁, is₂, -, hpre, hm, -⟩ := hrun.split
      obtain ⟨hw, hs⟩ := CountInv.of_run hpre
      exact explained hw hs (machine_move hm) hp (hno e (by simp))
    refine ⟨changes, ?_⟩
    rintro tr₁ w tr₂ data rfl hl hkept
    refine congrArg some (valueReg_kept hrun hl ?_ hkept)
    rintro tr₃ e tr₄ rfl
    exact changes (tr₁ ++ w :: tr₃) e tr₄ (by simp)

/-- RELOAD is 5 and ENABLE set; then, in the middle of a tick, CTRL is written 0. -/
def disableMidTick : List Op :=
  [.timerThread, .transport ⟨⟨.write, 0x08, some [5, 0, 0, 0], 4, .incomplete, false⟩, none, 4⟩,
    .transport ⟨⟨.write, 0x00, some [1, 0, 0, 0], 4, .incomplete, false⟩, none, 4⟩, .timerThread, .delta,
    .advance 10000, .transport ⟨⟨.write, 0x00, some [0, 0, 0, 0], 4, .incomplete, false⟩, none, 4⟩,
    .timerThread, .delta]

theorem spurious_disableMidTick : ∃ tr s,
    Run (traced machine) (new 20000 true true) disableMidTick tr s ∧ ∃ e ∈ tr, Spurious e := by
  have hx : (exec (traced machine) (new 20000 true true) disableMidTick).map (fun r =>
      r.2.any fun e => decide (Spurious e)) = some true := by decide +kernel
  obtain ⟨⟨s, tr⟩, he, hs⟩ := Option.map_eq_some_iff.1 hx
  obtain ⟨e, hmem, hsp⟩ := List.any_eq_true.1 hs
  exact ⟨tr, s, Run.of_exec he, e, hmem, of_decide_eq_true hsp⟩

theorem timer_counts_iff_disableMidTick : ∃ tr s,
    Run (traced machine) (new 20000 true true) disableMidTick tr s ∧ ¬ CountsOnClock tr s := by
  obtain ⟨tr, s, hrun, e, hmem, hsp⟩ := spurious_disableMidTick
  exact ⟨tr, s, hrun, fun h => (timer_counts_iff 20000 true true disableMidTick tr s hrun).1 h e hmem hsp⟩

/-- Clearing ENABLE takes VALUE from 5 to 4, in the middle of the tick. -/
theorem not_countsOnClock_disableMidTick : ¬ ∀ (period : Nat) (prstn extin : Bool) (is : List Op)
    (tr : List (Step Timer Op Obs)) (s : Timer),
    Run (traced machine) (new period prstn extin) is tr s → CountsOnClock tr s := by
  intro h
  obtain ⟨tr, s, hrun, e, hmem, hsp⟩ := spurious_disableMidTick
  obtain ⟨tr₁, tr₂, rfl⟩ := List.append_of_mem hmem
  obtain ⟨is₁, is₂, -, hpre, hm, -⟩ := hrun.split
  refine not_explained (CountInv.of_run hpre).2 (machine_move hm) hsp ?_
  exact (h 20000 true true disableMidTick _ s hrun).changes tr₁ e tr₂ rfl hsp.1

end CdcVp
