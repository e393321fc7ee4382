import CdcVp.TimerMove

/-!
# The waits of the timer

`WaitInv`: what the thread's place says of the registers and of `prstn`. A wait for the next count began with
ENABLE set and in the mode CTRL still shows, because a write of CTRL ends it.
-/

namespace CdcVp
open FlatStore LittleEndian Runs

namespace TimerThread
variable {t : TimerThread} {posedge negedge extinPosedge : Bool} {period now since : Nat}

/-- Only a wait for a tick that is not over stays one. -/
theorem delta_eq_tick (h : t.delta posedge negedge extinPosedge period now = .counting (.tick since)) :
    t = .counting (.tick since) := by
  cases t with
  | counting w =>
    cases w with
    | clock =>
      simp only [delta] at h
      split at h
      · cases h
      · split at h <;> cases h
    | tick since' =>
      simp only [delta] at h
      split at h
      · cases h
      · split at h
        · cases h
        · exact h
  | inReset | disabled =>
    simp only [delta] at h
    split at h <;> cases h
  | start | leftReset | leftDisabled | counted => cases h

theorem delta_tick : (counting (.tick since)).delta posedge negedge extinPosedge period now =
    if since + period ≤ now then .counted .timeout
    else if negedge then .counted .negedge
    else .counting (.tick since) := rfl

theorem delta_eq_timeout (hr : t.runnable = false) :
    t.delta posedge negedge extinPosedge period now = .counted .timeout ↔
      ∃ since, t = .counting (.tick since) ∧ since + period ≤ now := by
  rcases waits_of_not_runnable hr with rfl | rfl | ⟨_ | since', rfl⟩ <;> simp only [delta]
  · split_ifs <;> simp
  · split_ifs <;> simp
  · split_ifs <;> simp
  · split_ifs <;> simp_all

theorem delta_eq_extin (hr : t.runnable = false) :
    t.delta posedge negedge extinPosedge period now = .counted .extin ↔
      t = .counting .clock ∧ extinPosedge = true := by
  rcases waits_of_not_runnable hr with rfl | rfl | ⟨_ | since', rfl⟩ <;> simp only [delta]
  · split_ifs <;> simp
  · split_ifs <;> simp
  · split_ifs <;> simp_all
  · split_ifs <;> simp

end TimerThread

namespace Timer
variable {s s' : Timer} {op : Op} {o : List Obs}

/-- What holds where the thread is. -/
def WaitInv (s : Timer) : Prop :=
  match s.timerThread with
  | .start | .leftReset => s.timerintNext = false
  | .inReset => s.prstn = false ∧ s.intrStatus = false ∧ s.timerintNext = false
  | .disabled => s.prstn = true ∧ s.enabled = false
  | .counting .clock => s.prstn = true ∧ s.enabled = true ∧ s.exClk = true
  | .counting (.tick since) =>
    s.prstn = true ∧ s.enabled = true ∧ s.exClk = false ∧ s.now ≤ since + s.tickPeriod
  | .counted .clear => s.prstn = true ∧ s.intrClearInc = true
  | .counted .negedge => s.prstn = false
  | _ => True

namespace WaitInv

theorem of_thread {t : TimerThread} (hs : s.WaitInv) (ht : s.timerThread = t) :
    ({ s with timerThread := t } : Timer).WaitInv := by
  rw [← ht]
  exact hs

theorem start (hs : s.WaitInv) (ht : s.timerThread = .start) : s.timerintNext = false := hs.of_thread ht

theorem leftReset (hs : s.WaitInv) (ht : s.timerThread = .leftReset) : s.timerintNext = false :=
  hs.of_thread ht

theorem inReset (hs : s.WaitInv) (ht : s.timerThread = .inReset) :
    s.prstn = false ∧ s.intrStatus = false ∧ s.timerintNext = false := hs.of_thread ht

theorem disabled (hs : s.WaitInv) (ht : s.timerThread = .disabled) : s.prstn = true ∧ s.enabled = false :=
  hs.of_thread ht

theorem clock (hs : s.WaitInv) (ht : s.timerThread = .counting .clock) :
    s.prstn = true ∧ s.enabled = true ∧ s.exClk = true := hs.of_thread ht

theorem tick {since : Nat} (hs : s.WaitInv) (ht : s.timerThread = .counting (.tick since)) :
    s.prstn = true ∧ s.enabled = true ∧ s.exClk = false ∧ s.now ≤ since + s.tickPeriod := hs.of_thread ht

theorem clear (hs : s.WaitInv) (ht : s.timerThread = .counted .clear) :
    s.prstn = true ∧ s.intrClearInc = true := hs.of_thread ht

theorem negedge (hs : s.WaitInv) (ht : s.timerThread = .counted .negedge) : s.prstn = false := hs.of_thread ht

theorem counting {w : CountWait} (hs : s.WaitInv) (ht : s.timerThread = .counting w) :
    s.prstn = true ∧ s.enabled = true := by
  cases w with
  | clock => exact ⟨(hs.clock ht).1, (hs.clock ht).2.1⟩
  | tick since => exact ⟨(hs.tick ht).1, (hs.tick ht).2.1⟩

/-- With ENABLE and EX_CLK set a thread that waits, waits for an edge of `extin`. -/
theorem waits_clock (hs : s.WaitInv) (hr : s.timerThread.runnable = false) (hp : s.prstn = true)
    (he : s.enabled = true) (hx : s.exClk = true) : s.timerThread = .counting .clock := by
  rcases TimerThread.waits_of_not_runnable hr with ht | ht | ⟨_ | since, ht⟩
  · exact absurd hp (ne_true_of_eq_false (hs.inReset ht).1)
  · exact absurd he (ne_true_of_eq_false (hs.disabled ht).2)
  · exact ht
  · exact absurd hx (ne_true_of_eq_false (hs.tick ht).2.2.1)

/-- The invariant reads the thread, `prstn`, CTRL, the flag, the clock and, in reset, the interrupt. -/
theorem congr (hs : s.WaitInv) (ht : s'.timerThread = s.timerThread) (hp : s'.prstn = s.prstn)
    (hc : s'.ctrlReg = s.ctrlReg) (hf : s.intrClearInc = true → s'.intrClearInc = true)
    (hnow : s'.now = s.now) (hper : s'.tickPeriod = s.tickPeriod)
    (hi : s.intrStatus = false → s'.intrStatus = false) (hl : s'.timerintNext = s.timerintNext) :
    s'.WaitInv := by
  unfold WaitInv enabled exClk at hs ⊢
  rw [ht, hp, hc, hnow, hper, hl]
  revert hs
  split
  · exact id
  · exact id
  · exact fun ⟨h, h', h''⟩ => ⟨h, hi h', h''⟩
  · exact id
  · exact id
  · exact id
  · exact fun ⟨h, h'⟩ => ⟨h, hf h'⟩
  · exact id
  · exact id

/-- A write that notifies `update_reg` leaves no wait that depends on the registers. -/
theorem update (hs : s.WaitInv) (ctrl value reload : UInt32) :
    ({ s with
      ctrlReg := ctrl
      valueReg := value
      reloadReg := reload
      timerThread := s.timerThread.notifyUpdate } : Timer).WaitInv := by
  cases ht : s.timerThread with
  | start => exact hs.start ht
  | inReset => exact hs.inReset ht
  | leftReset => exact hs.leftReset ht
  | counted c =>
    cases c with
    | clear => exact hs.clear ht
    | negedge => exact hs.negedge ht
    | timeout | extin | update => trivial
  | disabled | leftDisabled | counting => trivial

theorem ack (hs : s.WaitInv) : ({ s with
    intrStatus := false
    intrClearInc := true
    timerThread := s.timerThread.notifyClear } : Timer).WaitInv := by
  cases ht : s.timerThread with
  | start => exact hs.start ht
  | inReset => exact ⟨(hs.inReset ht).1, rfl, (hs.inReset ht).2.2⟩
  | leftReset => exact hs.leftReset ht
  | disabled => exact hs.disabled ht
  | counting w => exact ⟨(hs.counting ht).1, rfl⟩
  | counted c =>
    cases c with
    | clear => exact ⟨(hs.clear ht).1, rfl⟩
    | negedge => exact hs.negedge ht
    | timeout | extin | update => trivial
  | leftDisabled => trivial

theorem bus {t : ApbPayload} (h : BusMove s t s' o) (hs : s.WaitInv) : s'.WaitInv := by
  cases h with
  | quiet | read => exact hs
  | ctrl | value | reload => exact hs.update _ _ _
  | ack => exact hs.ack

theorem head (h : HeadMove s s') : s'.WaitInv := by
  cases h with
  | reset low => exact ⟨low, rfl, rfl⟩
  | disabled high off => exact ⟨high, off⟩
  | counting high on =>
    cases hx : s.exClk with
    | true => exact ⟨high, on, hx⟩
    | false => exact ⟨high, on, hx, Nat.le_add_right _ _⟩

/-- The end of a delta cycle: what is still waiting has seen no edge that it waits for. -/
theorem delta (hs : s.WaitInv) (hr : s.timerThread.runnable = false) : s.deltaCycle.WaitInv := by
  unfold deltaCycle
  rcases TimerThread.waits_of_not_runnable hr with ht | ht | ⟨_ | since, ht⟩
  · obtain ⟨hp, hi, hl⟩ := hs.inReset ht
    rw [ht, TimerThread.delta, hp]
    cases hn : s.prstnNext with
    | true => exact hl
    | false => exact ⟨rfl, hi, hl⟩
  · obtain ⟨hp, he⟩ := hs.disabled ht
    rw [ht, TimerThread.delta, hp]
    cases hn : s.prstnNext with
    | true => exact ⟨rfl, he⟩
    | false => trivial
  · obtain ⟨hp, he, hx⟩ := hs.clock ht
    rw [ht, TimerThread.delta, hp]
    split
    · trivial
    · cases hn : s.prstnNext with
      | true => exact ⟨rfl, he, hx⟩
      | false => exact rfl
  · obtain ⟨hp, he, hx, hle⟩ := hs.tick ht
    rw [ht, TimerThread.delta, hp]
    split
    · trivial
    · cases hn : s.prstnNext with
      | true => exact ⟨rfl, he, hx, hle⟩
      | false => exact rfl

theorem advance {time : Nat} (hs : s.WaitInv) (hr : s.timerThread.runnable = false)
    (hno : ∀ since, s.timerThread = .counting (.tick since) → time < since + s.tickPeriod) :
    ({ s with now := time } : Timer).WaitInv := by
  unfold WaitInv
  dsimp only
  rcases TimerThread.waits_of_not_runnable hr with ht | ht | ⟨_ | since, ht⟩ <;> rw [ht]
  · exact hs.inReset ht
  · exact hs.disabled ht
  · exact hs.clock ht
  · obtain ⟨hp, he, hx, -⟩ := hs.tick ht
    exact ⟨hp, he, hx, (hno since ht).le⟩

theorem step (h : Move s op s' o) (hs : s.WaitInv) : s'.WaitInv := by
  cases h with
  | bus t h => exact (hs.bus h).congr rfl rfl rfl id rfl rfl id rfl
  | prstn level | extin level => exact hs.congr rfl rfl rfl id rfl rfl id rfl
  | waiting => exact hs
  | enter _ hh => exact (head hh).congr rfl rfl rfl id rfl rfl id rfl
  | count c _ _ hh => exact (head hh).congr rfl rfl rfl id rfl rfl id rfl
  | delta hr => exact hs.delta hr
  | advance time settled _ hno => exact hs.advance settled.2.1 hno
  | timeout => trivial

theorem of_run {period : Nat} {prstn extin : Bool} {is : List Op} {os : List Obs}
    (h : Run machine (new period prstn extin) is os s) : s.WaitInv :=
  h.inv WaitInv rfl fun _ _ _ _ hi hs => hs.step (machine_move hi)

end WaitInv

/-- The thread has its turn, and takes it. -/
def Turns (e : Step Timer Op Obs) : Prop := e.input = .timerThread ∧ e.pre.timerThread.runnable = true

theorem turns_enter (h : s.timerThread = .start ∨ s.timerThread = .leftReset ∨ s.timerThread = .leftDisabled) :
    Turns ⟨s, .timerThread, s', o⟩ := by
  refine ⟨rfl, ?_⟩
  show s.timerThread.runnable = true
  rcases h with h | h | h <;> rw [h] <;> rfl

theorem turns_count {c : Cause} (h : s.timerThread = .counted c) : Turns ⟨s, .timerThread, s', o⟩ := by
  refine ⟨rfl, ?_⟩
  show s.timerThread.runnable = true
  rw [h]
  rfl

end Timer
end CdcVp
