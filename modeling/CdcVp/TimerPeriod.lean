import CdcVp.DownCounter
import CdcVp.TimerCount

/-!
# The period of the timer

With ENABLE set, no acknowledgement pending and nothing written, the timer is a down counter: `Periodic` is its
state after the count events of a history. The one exception is a thread that a write has woken before the
history began: its next turn counts without a count event.
-/

namespace CdcVp
open FlatStore LittleEndian Runs DownCounter

namespace TimerThread

theorem delta_ne_update {t : TimerThread} {posedge negedge extinPosedge : Bool} {period now : Nat}
    (hr : t.runnable = false) : t.delta posedge negedge extinPosedge period now ≠ .counted .update := by
  rcases waits_of_not_runnable hr with rfl | rfl | ⟨_ | since, rfl⟩ <;> simp only [delta] <;>
    split_ifs <;> simp

end TimerThread

namespace Timer
variable {s₀ s s' a : Timer} {op : Op} {o : List Obs} {tr : List (Step Timer Op Obs)} {e : Step Timer Op Obs}

/-- A count event reaches the thread: the tick it waits for is over, or `extin` has risen, and the gate is
open. -/
def IsCount (e : Step Timer Op Obs) : Prop :=
  e.input = .timerThread ∧ (e.pre.timerThread = .counted .timeout ∨ e.pre.timerThread = .counted .extin) ∧
    e.pre.gated = false

instance : DecidablePred IsCount := fun _ => inferInstanceAs (Decidable (_ ∧ _))

/-- The count events of a history. -/
def counts (tr : List (Step Timer Op Obs)) : Nat := tr.countP fun e => IsCount e

def crossed : Obs → Bool
  | .counted _ c => c
  | _ => false

/-- The zero crossings of a history. -/
def zeroCrossings (tr : List (Step Timer Op Obs)) : Nat := (tr.flatMap Step.obs).countP crossed

def intrEnabled (s : Timer) : Bool := s.ctrlReg &&& opsIntrEn ≠ 0

/-- An accepted write of any register, or an accepted acknowledgement. -/
def IsWrite (e : Step Timer Op Obs) : Prop := Updated e ∨ Acked e

instance : DecidablePred IsWrite := fun _ => inferInstanceAs (Decidable (_ ∨ _))

theorem counts_snoc (tr : List (Step Timer Op Obs)) (e : Step Timer Op Obs) :
    counts (tr ++ [e]) = counts tr + if IsCount e then 1 else 0 := by
  rw [counts, countP_snoc]
  simp only [decide_eq_true_eq]
  rfl

theorem zeroCrossings_snoc (tr : List (Step Timer Op Obs)) (e : Step Timer Op Obs) :
    zeroCrossings (tr ++ [e]) = zeroCrossings tr + e.obs.countP crossed := by
  rw [zeroCrossings, List.flatMap_append, List.flatMap_singleton, List.countP_append, zeroCrossings]

/-- The count events are those of the clock. -/
theorem isCount_iff (hs : CountInv tr s) (he : e.pre = s) : IsCount e ↔ CountEvent tr e := by
  rw [CountEvent, hs.clocked, ← he]
  constructor
  · rintro ⟨hop, hc, hg⟩
    refine ⟨⟨hop, ?_⟩, hc, hg⟩
    rcases hc with hc | hc <;> rw [hc] <;> rfl
  · rintro ⟨⟨hop, -⟩, hc, hg⟩
    exact ⟨hop, hc, hg⟩

/-- The timer after a history that began in `s₀`. -/
structure Periodic (s₀ : Timer) (tr : List (Step Timer Op Obs)) (s : Timer) : Prop where
  wait : s.WaitInv
  prstn : s.prstn = true
  ctrl : s.ctrlReg = s₀.ctrlReg
  reload : s.reloadReg = s₀.reloadReg
  flag : s.intrClearInc = false
  /-- A thread that a write has woken finds the gate closed. -/
  update : s.timerThread = .counted .update → s.gated = true
  value : s.valueReg.toNat = after s₀.reloadReg.toNat s₀.valueReg.toNat (counts tr)
  crossings : zeroCrossings tr = DownCounter.crossings s₀.reloadReg.toNat s₀.valueReg.toNat (counts tr)
  status : s.intrStatus = true ↔ s₀.intrStatus = true ∨ zeroCrossings tr ≠ 0
  line : s.timerintNext = true ↔ s₀.timerintNext = true ∨ zeroCrossings tr ≠ 0 ∧ s₀.intrEnabled = true

namespace Periodic

theorem init (hw : s₀.WaitInv) (hp : s₀.prstn = true) (hf : s₀.intrClearInc = false)
    (hu : ¬ (s₀.timerThread = .counted .update ∧ s₀.gated = false)) : Periodic s₀ [] s₀ := by
  refine ⟨hw, hp, rfl, rfl, hf, ?_, ?_, ?_, ?_, ?_⟩
  · exact fun ht => Bool.not_eq_false _ ▸ fun hg => hu ⟨ht, hg⟩
  · exact (after_zero _ _).symm
  · exact (crossings_zero _ _).symm
  · exact (or_iff_left fun h => h rfl).symm
  · exact (or_iff_left fun h => h.1 rfl).symm

theorem enabled (hs : Periodic s₀ tr s) (he : s₀.enabled = true) : s.enabled = true := by
  rw [Timer.enabled, hs.ctrl]
  exact he

/-- A step that counts nothing and leaves the registers. -/
theorem keep (hs : Periodic s₀ tr s) (hw : s'.WaitInv) (hp : s'.prstn = true)
    (hu : s'.timerThread = .counted .update → s'.gated = true) (hc : s'.ctrlReg = s.ctrlReg)
    (hr : s'.reloadReg = s.reloadReg) (hf : s'.intrClearInc = s.intrClearInc)
    (hv : s'.valueReg = s.valueReg) (hi : s'.intrStatus = s.intrStatus)
    (hl : s'.timerintNext = s.timerintNext) (hno : ¬ IsCount e) (ho : e.obs.countP crossed = 0) :
    Periodic s₀ (tr ++ [e]) s' := by
  have hk : counts (tr ++ [e]) = counts tr := by rw [counts_snoc, if_neg hno, Nat.add_zero]
  have hz : zeroCrossings (tr ++ [e]) = zeroCrossings tr := by rw [zeroCrossings_snoc, ho, Nat.add_zero]
  refine ⟨hw, hp, hc.trans hs.ctrl, hr.trans hs.reload, hf.trans hs.flag, hu, ?_, ?_, ?_, ?_⟩
  · rw [hv, hk]
    exact hs.value
  · rw [hz, hk]
    exact hs.crossings
  · rw [hi, hz]
    exact hs.status
  · rw [hl, hz]
    exact hs.line

/-- A count above zero. -/
theorem down (hs : Periodic s₀ tr s) (hw : s'.WaitInv) (hp : s'.prstn = true)
    (hu : s'.timerThread = .counted .update → s'.gated = true) (hc : s'.ctrlReg = s.ctrlReg)
    (hr : s'.reloadReg = s.reloadReg) (hf : s'.intrClearInc = s.intrClearInc)
    (hv : s'.valueReg = s.valueReg - 1) (hi : s'.intrStatus = s.intrStatus)
    (hl : s'.timerintNext = s.timerintNext) (hcount : IsCount e) (hne : s.valueReg ≠ 0)
    (ho : e.obs.countP crossed = 0) : Periodic s₀ (tr ++ [e]) s' := by
  have hk : counts (tr ++ [e]) = counts tr + 1 := by rw [counts_snoc, if_pos hcount]
  have hz : zeroCrossings (tr ++ [e]) = zeroCrossings tr := by rw [zeroCrossings_snoc, ho, Nat.add_zero]
  have hpos : after s₀.reloadReg.toNat s₀.valueReg.toNat (counts tr) ≠ 0 := by
    rw [← hs.value]
    exact fun h0 => hne (UInt32.toNat_inj.1 h0)
  refine ⟨hw, hp, hc.trans hs.ctrl, hr.trans hs.reload, hf.trans hs.flag, hu, ?_, ?_, ?_, ?_⟩
  · rw [hv, hk, after_succ, next_of_ne hpos, ← hs.value]
    exact toNat_sub_one hne
  · rw [hz, hk, crossings_succ, if_neg hpos]
    exact hs.crossings
  · rw [hi, hz]
    exact hs.status
  · rw [hl, hz]
    exact hs.line

/-- A zero crossing. -/
theorem zero (hs : Periodic s₀ tr s) (hw : s'.WaitInv) (hp : s'.prstn = true)
    (hu : s'.timerThread = .counted .update → s'.gated = true) (hc : s'.ctrlReg = s.ctrlReg)
    (hr : s'.reloadReg = s.reloadReg) (hf : s'.intrClearInc = s.intrClearInc)
    (hv : s'.valueReg = s.reloadReg) (hi : s'.intrStatus = true)
    (hl : s'.timerintNext = if s.ctrlReg &&& opsIntrEn ≠ 0 then true else s.timerintNext)
    (hcount : IsCount e) (hzero : s.valueReg = 0) (ho : e.obs.countP crossed = 1) :
    Periodic s₀ (tr ++ [e]) s' := by
  have hk : counts (tr ++ [e]) = counts tr + 1 := by rw [counts_snoc, if_pos hcount]
  have hz : zeroCrossings (tr ++ [e]) = zeroCrossings tr + 1 := by rw [zeroCrossings_snoc, ho]
  have hnil : after s₀.reloadReg.toNat s₀.valueReg.toNat (counts tr) = 0 := by
    rw [← hs.value, hzero]
    rfl
  refine ⟨hw, hp, hc.trans hs.ctrl, hr.trans hs.reload, hf.trans hs.flag, hu, ?_, ?_, ?_, ?_⟩
  · rw [hv, hk, after_succ, hnil, next_zero, hs.reload]
  · rw [hz, hk, crossings_succ, if_pos hnil, hs.crossings]
  · rw [hz]
    exact iff_of_true hi (.inr (Nat.succ_ne_zero _))
  · have hen : s.ctrlReg &&& opsIntrEn ≠ 0 ↔ s₀.intrEnabled = true := by
      rw [hs.ctrl, intrEnabled, decide_eq_true_eq]
    rw [hl, hz]
    split
    · rename_i h
      exact iff_of_true rfl (.inr ⟨Nat.succ_ne_zero _, hen.1 h⟩)
    · rename_i h
      have hoff : ¬ s₀.intrEnabled = true := fun h' => h (hen.2 h')
      rw [hs.line, or_iff_left fun h' => hoff h'.2, or_iff_left fun h' => hoff h'.2]

/-- The thread waits for the next count again. -/
theorem head_waits (h : HeadMove a s') (hp : a.prstn = true) (he : a.enabled = true) :
    s' = { a with timerThread := .counting (if a.exClk then .clock else .tick a.now) } := by
  cases h with
  | reset low => exact absurd hp (ne_true_of_eq_false low)
  | disabled high off => exact absurd he (ne_true_of_eq_false off)
  | counting high on => rfl

theorem not_isCount (h : e.input ≠ .timerThread) : ¬ IsCount e := fun hc => h hc.1

theorem bus {t : ApbPayload} (hs : Periodic s₀ tr s) (hw : { s' with evaluating := true }.WaitInv)
    (hp : s'.prstn = true) (h : BusMove s t s' o)
    (hno : ¬ IsWrite ⟨s, .transport t, { s' with evaluating := true }, o⟩) :
    Periodic s₀ (tr ++ [⟨s, .transport t, { s' with evaluating := true }, o⟩]) { s' with evaluating := true } := by
  have hop : ¬ IsCount ⟨s, .transport t, { s' with evaluating := true }, o⟩ := not_isCount Op.noConfusion
  cases h with
  | quiet => exact hs.keep hw hp hs.update rfl rfl rfl rfl rfl rfl hop rfl
  | read => exact hs.keep hw hp hs.update rfl rfl rfl rfl rfl rfl hop rfl
  | ctrl data ht => exact absurd (.inl ⟨t, rfl, data, .inl ht⟩) hno
  | value data ht => exact absurd (.inl ⟨t, rfl, data, .inr (.inl ht)⟩) hno
  | reload data ht => exact absurd (.inl ⟨t, rfl, data, .inr (.inr ht)⟩) hno
  | ack ht => exact absurd (.inr ⟨t, rfl, ht⟩) hno

/-- A turn of the thread from its wait for the next count: with the gate open it is a count event, because the
thread was not woken by a write. -/
theorem turn {c : Cause} (hs : Periodic s₀ tr s) (hen : s₀.enabled = true) (ht : s.timerThread = .counted c)
    (hc : CountMove s a o) (hh : HeadMove a s') (hw : { s' with evaluating := true }.WaitInv) :
    Periodic s₀ (tr ++ [⟨s, .timerThread, { s' with evaluating := true }, o⟩])
      { s' with evaluating := true } := by
  have hcount : s.gated = false → IsCount ⟨s, .timerThread, { s' with evaluating := true }, o⟩ := by
    intro hg
    refine ⟨rfl, ?_, hg⟩
    cases c with
    | timeout => exact .inl ht
    | extin => exact .inr ht
    | update => exact absurd (hs.update ht) (ne_true_of_eq_false hg)
    | clear => exact absurd (hs.wait.clear ht).2 (ne_true_of_eq_false hs.flag)
    | negedge => exact absurd hs.prstn (ne_true_of_eq_false (hs.wait.negedge ht))
  have hon := hs.enabled hen
  cases hc with
  | consume flag => exact absurd flag (ne_true_of_eq_false hs.flag)
  | closed flag gated =>
    cases head_waits hh hs.prstn hon
    refine hs.keep hw hs.prstn TimerThread.noConfusion rfl rfl rfl rfl rfl rfl ?_ rfl
    exact fun h => absurd gated (ne_true_of_eq_false h.2.2)
  | zero flag gated h0 =>
    cases head_waits hh hs.prstn hon
    exact hs.zero hw hs.prstn TimerThread.noConfusion rfl rfl rfl rfl rfl rfl (hcount gated) h0 rfl
  | down flag gated h0 =>
    cases head_waits hh hs.prstn hon
    exact hs.down hw hs.prstn TimerThread.noConfusion rfl rfl rfl rfl rfl rfl (hcount gated) h0 rfl

theorem step (hs : Periodic s₀ tr s) (hen : s₀.enabled = true) (h : Move s op s' o)
    (hno : ¬ IsWrite ⟨s, op, s', o⟩) (hp : s'.prstn = true) : Periodic s₀ (tr ++ [⟨s, op, s', o⟩]) s' := by
  have hw := hs.wait.step h
  cases h with
  | bus t h => exact hs.bus hw hp h hno
  | prstn level | extin level =>
    exact hs.keep hw hp hs.update rfl rfl rfl rfl rfl rfl (not_isCount Op.noConfusion) rfl
  | waiting hr =>
    refine hs.keep hw hp hs.update rfl rfl rfl rfl rfl rfl ?_ rfl
    rintro ⟨-, ht | ht, -⟩ <;> exact TimerThread.ne_counted hr _ ht
  | enter ht hh =>
    cases head_waits hh hs.prstn (hs.enabled hen)
    refine hs.keep hw hp TimerThread.noConfusion rfl rfl rfl rfl rfl rfl ?_ rfl
    rintro ⟨-, hc, -⟩
    rcases hc with hc | hc <;> rcases ht with ht | ht | ht <;> cases ht.symm.trans hc
  | count c ht hc hh => exact hs.turn hen ht hc hh hw
  | delta hr =>
    refine hs.keep hw hp (fun ht => absurd ht (TimerThread.delta_ne_update hr)) rfl rfl rfl rfl rfl rfl
      (not_isCount Op.noConfusion) rfl
  | advance time =>
    exact hs.keep hw hp hs.update rfl rfl rfl rfl rfl rfl (not_isCount Op.noConfusion) rfl
  | timeout since =>
    exact hs.keep hw hp (by simp) rfl rfl rfl rfl rfl rfl (not_isCount Op.noConfusion) rfl

theorem run {is : List Op} (hrun : Run (traced machine) s₀ is tr s) (hen : s₀.enabled = true)
    (hno : ∀ e ∈ tr, ¬ IsWrite e) (hp : ∀ e ∈ tr, e.post.prstn = true) (h0 : Periodic s₀ [] s₀) :
    Periodic s₀ tr s := by
  refine hrun.trace (fun tr s => (∀ e ∈ tr, ¬ IsWrite e) → (∀ e ∈ tr, e.post.prstn = true) → Periodic s₀ tr s)
    (fun _ _ => h0) ?_ hno hp
  intro tr a i b o hi ih hno hp
  have ha := ih (fun e he => hno e (List.mem_append_left _ he)) fun e he => hp e (List.mem_append_left _ he)
  exact ha.step hen (machine_move hi) (hno _ (by simp)) (hp ⟨a, i, b, o⟩ (by simp))

/-- With the gate closed a step changes nothing that counts. -/
theorem gate (hs : Periodic s₀ tr s) (hen : s₀.enabled = true) (h : Move s op s' o)
    (hno : ¬ IsWrite ⟨s, op, s', o⟩) (hg : s.gated = true) : s'.valueReg = s.valueReg ∧
      s'.intrStatus = s.intrStatus ∧ s'.timerintNext = s.timerintNext ∧ o.countP crossed = 0 := by
  cases h with
  | bus t h =>
    cases h with
    | quiet | read => exact ⟨rfl, rfl, rfl, rfl⟩
    | ctrl data ht => exact absurd (.inl ⟨t, rfl, data, .inl ht⟩) hno
    | value data ht => exact absurd (.inl ⟨t, rfl, data, .inr (.inl ht)⟩) hno
    | reload data ht => exact absurd (.inl ⟨t, rfl, data, .inr (.inr ht)⟩) hno
    | ack ht => exact absurd (.inr ⟨t, rfl, ht⟩) hno
  | enter ht hh =>
    cases head_waits hh hs.prstn (hs.enabled hen)
    exact ⟨rfl, rfl, rfl, rfl⟩
  | count c ht hc hh =>
    cases hc with
    | consume flag => exact absurd flag (ne_true_of_eq_false hs.flag)
    | closed =>
      cases head_waits hh hs.prstn (hs.enabled hen)
      exact ⟨rfl, rfl, rfl, rfl⟩
    | zero flag gated | down flag gated => exact absurd hg (ne_true_of_eq_false gated)
  | prstn | extin | waiting | delta | advance | timeout => exact ⟨rfl, rfl, rfl, rfl⟩

end Periodic

/-- The timer after the count events of a history from `s₀`: the zero crossings, VALUE, the status and the line
in closed form, and nothing changed by the steps with the gate closed. -/
structure PeriodAt (s₀ : Timer) (tr : List (Step Timer Op Obs)) (s : Timer) : Prop where
  crossings : zeroCrossings tr = if counts tr ≤ s₀.valueReg.toNat then 0
    else 1 + (counts tr - s₀.valueReg.toNat - 1) / (s₀.reloadReg.toNat + 1)
  value : s.valueReg.toNat = if counts tr ≤ s₀.valueReg.toNat then s₀.valueReg.toNat - counts tr
    else s₀.reloadReg.toNat - (counts tr - s₀.valueReg.toNat - 1) % (s₀.reloadReg.toNat + 1)
  status : s.intrStatus = true ↔ s₀.intrStatus = true ∨ zeroCrossings tr ≠ 0
  line : s.timerintNext = true ↔ s₀.timerintNext = true ∨ zeroCrossings tr ≠ 0 ∧ s₀.intrEnabled = true
  signal : s.Settled → s.timerint = s.timerintNext
  gate : ∀ e ∈ tr, e.pre.gated = true → e.post.valueReg = e.pre.valueReg ∧
    e.post.intrStatus = e.pre.intrStatus ∧ e.post.timerintNext = e.pre.timerintNext ∧
    e.obs.countP crossed = 0

/-- The closed form over every run from `s₀` in which `prstn` stays high and no register is written. -/
def PeriodExact (s₀ : Timer) : Prop :=
  ∀ (is : List Op) (tr : List (Step Timer Op Obs)) (s : Timer), Run (traced machine) s₀ is tr s →
    (∀ e ∈ tr, ¬ IsWrite e) → (∀ e ∈ tr, e.post.prstn = true) → PeriodAt s₀ tr s

/-- The thread is about to count for a write. -/
def UpdatePending (s : Timer) : Prop := s.timerThread = .counted .update ∧ s.gated = false

instance (s : Timer) : Decidable s.UpdatePending := inferInstanceAs (Decidable (_ ∧ _))

theorem periodExact_of_not_pending (hw : s₀.WaitInv) (hp : s₀.prstn = true) (hen : s₀.enabled = true)
    (hf : s₀.intrClearInc = false) (hu : ¬ s₀.UpdatePending) : PeriodExact s₀ := by
  intro is tr s hrun hno hps
  have h0 := Periodic.init hw hp hf hu
  have hs := Periodic.run hrun hen hno hps h0
  refine ⟨hs.crossings, hs.value, hs.status, hs.line, fun hsettled => hsettled.2.2.2.2.2, ?_⟩
  intro e he hg
  obtain ⟨tr₁, tr₂, rfl⟩ := List.append_of_mem he
  obtain ⟨is₁, is₂, -, hpre, hm, -⟩ := hrun.split
  have hs₁ := Periodic.run hpre hen (fun f hf => hno f (by simp [hf])) (fun f hf => hps f (by simp [hf])) h0
  exact hs₁.gate hen (machine_move hm) (hno e he) hg

/-- The turn that a write has caused counts, with no count event in the history. -/
theorem not_periodExact (hp : s₀.prstn = true) (hen : s₀.enabled = true) (hf : s₀.intrClearInc = false)
    (hu : s₀.UpdatePending) : ¬ PeriodExact s₀ := by
  intro h
  obtain ⟨ht, hg⟩ := hu
  have hm := machine_count ht
  have hc := count_move s₀
  have hh := head_move s₀.count.1
  have hstep : traced machine s₀ .timerThread = some ({ s₀.count.1.head with evaluating := true },
      [⟨s₀, .timerThread, { s₀.count.1.head with evaluating := true }, s₀.count.2⟩]) := by
    rw [traced, hm]
    rfl
  have hno : ¬ IsCount ⟨s₀, .timerThread, { s₀.count.1.head with evaluating := true }, s₀.count.2⟩ := by
    rintro ⟨-, hc | hc, -⟩ <;> cases ht.symm.trans hc
  generalize s₀.count = r at hc hh hstep hno
  obtain ⟨a, o⟩ := r
  generalize a.head = b at hh hstep hno
  have hquiet : ¬ IsWrite ⟨s₀, .timerThread, { b with evaluating := true }, o⟩ := by
    rintro (⟨t, h, -⟩ | ⟨t, h, -⟩) <;> cases h
  have hk : counts [⟨s₀, .timerThread, { b with evaluating := true }, o⟩] = 0 := by
    rw [← List.nil_append [_], counts_snoc, if_neg hno]
    rfl
  cases hc with
  | consume flag => exact absurd flag (ne_true_of_eq_false hf)
  | closed flag gated => exact absurd gated (ne_true_of_eq_false hg)
  | zero flag gated h0 =>
    cases Periodic.head_waits hh hp hen
    have hat := h _ _ _ (Run.single hstep) (by simpa using hquiet) (by simpa using hp)
    have hcross := hat.crossings
    rw [hk, if_pos (Nat.zero_le _)] at hcross
    cases hcross
  | down flag gated h0 =>
    cases Periodic.head_waits hh hp hen
    have hat := h _ _ _ (Run.single hstep) (by simpa using hquiet) (by simpa using hp)
    have hval := hat.value
    rw [hk, if_pos (Nat.zero_le _)] at hval
    have hdec := toNat_sub_one h0
    have hpos : s₀.valueReg.toNat ≠ 0 := fun h => h0 (UInt32.toNat_inj.1 h)
    exact absurd (hdec.symm.trans hval) (by omega)

end Timer

open Timer

/-- When the timer keeps its period. In a reachable state with `prstn` high, ENABLE set and no acknowledgement
pending, the closed form holds over every run without register writes iff the thread is not about to count for
a write that has ended its wait. The count events are those of the clock. -/
theorem timer_period_iff (period : Nat) (prstn extin : Bool) (is₀ : List Op) (tr₀ : List (Step Timer Op Obs))
    (s₀ : Timer) (hrun : Run (traced machine) (new period prstn extin) is₀ tr₀ s₀) (hp : s₀.prstn = true)
    (hen : s₀.enabled = true) (hf : s₀.intrClearInc = false) :
    (PeriodExact s₀ ↔ ¬ s₀.UpdatePending) ∧
    ∀ (is : List Op) (tr₁ tr₂ : List (Step Timer Op Obs)) (e : Step Timer Op Obs) (s : Timer),
      Run (traced machine) s₀ is (tr₁ ++ e :: tr₂) s → (IsCount e ↔ CountEvent (tr₀ ++ tr₁) e) := by
  refine ⟨⟨fun h hu => not_periodExact hp hen hf hu h, ?_⟩, ?_⟩
  · exact periodExact_of_not_pending (CountInv.of_run hrun).1 hp hen hf
  · intro is tr₁ tr₂ e s h
    obtain ⟨is₁, is₂, -, hpre, -, -⟩ := h.split
    exact isCount_iff (CountInv.of_run (hrun.append hpre)).2 rfl

def timerWrite (addr : UInt64) (data : UInt32) : Op :=
  .transport ⟨⟨.write, addr, some (bytes 4 data.toNat), 4, .incomplete, false⟩, none, 4⟩

/-- RELOAD is 5 and ENABLE set; the thread waits for the first tick. -/
def reloadFive : List Op := [.timerThread, timerWrite 0x08 5, timerWrite 0x00 1, .timerThread, .delta]

theorem timer_period_iff_reloadFive : ∃ tr s, Run (traced machine) (new 20000 true true) reloadFive tr s ∧
    s.valueReg = 5 ∧ PeriodExact s := by
  have hx : (exec (traced machine) (new 20000 true true) reloadFive).map (fun r =>
      (r.1.prstn, r.1.enabled, r.1.intrClearInc, r.1.valueReg, decide r.1.UpdatePending)) =
      some (true, true, false, 5, false) := by decide +kernel
  obtain ⟨⟨s, tr⟩, he, hs⟩ := Option.map_eq_some_iff.1 hx
  simp only [Prod.mk.injEq] at hs
  obtain ⟨hp, hen, hf, hv, hu⟩ := hs
  have hrun := Run.of_exec he
  refine ⟨tr, s, hrun, hv, ?_⟩
  exact (timer_period_iff 20000 true true reloadFive tr s hrun hp hen hf).1.2 (of_decide_eq_false hu)

/-- In the middle of the first tick 5 is written to VALUE; without a count event VALUE becomes 4. -/
theorem not_periodExact_valueMidTick : ¬ ∀ (period : Nat) (prstn extin : Bool) (is₀ : List Op)
    (tr₀ : List (Step Timer Op Obs)) (s₀ : Timer),
    Run (traced machine) (new period prstn extin) is₀ tr₀ s₀ → s₀.prstn = true → s₀.enabled = true →
      s₀.intrClearInc = false → PeriodExact s₀ := by
  intro h
  have hx : (exec (traced machine) (new 20000 true true)
      (reloadFive ++ [.advance 10000, timerWrite 0x04 5])).map (fun r =>
        (r.1.prstn, r.1.enabled, r.1.intrClearInc, decide r.1.UpdatePending)) =
      some (true, true, false, true) := by decide +kernel
  obtain ⟨⟨s, tr⟩, he, hs⟩ := Option.map_eq_some_iff.1 hx
  simp only [Prod.mk.injEq] at hs
  obtain ⟨hp, hen, hf, hu⟩ := hs
  exact not_periodExact hp hen hf (of_decide_eq_true hu)
    (h 20000 true true _ tr s (Run.of_exec he) hp hen hf)

end CdcVp
