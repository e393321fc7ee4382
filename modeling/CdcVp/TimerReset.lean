import CdcVp.TimerWait

/-!
# What the reset of the timer leaves

`reset` clears the registers when `prstn` falls and then waits for it to rise. It does not clear
`intr_clear_inc`, and `b_transport` goes on writing registers while it waits. `ResetInv` reads off the steps what
is left at the rising edge, and each of the four remains shows in some continuation.
-/

namespace CdcVp
open FlatStore LittleEndian Runs

namespace TimerThread

theorem delta_eq_inReset {t : TimerThread} {p n x : Bool} {period now : Nat}
    (h : t.delta p n x period now = .inReset) : t = .inReset := by
  cases t with
  | counting w => cases w <;> (simp only [delta] at h; split_ifs at h)
  | inReset => rfl
  | disabled => simp only [delta] at h; split_ifs at h
  | start | leftReset | leftDisabled | counted => cases h

end TimerThread

namespace Timer
variable {s s' a : Timer} {op : Op} {o : List Obs} {t : ApbPayload} {tr : List (Step Timer Op Obs)}
variable {e : Step Timer Op Obs}

/-- The registers that a write loads. -/
inductive Reg
  | ctrl
  | value
  | reload
deriving DecidableEq, Repr

namespace Reg

def of (r : Reg) (s : Timer) : UInt32 :=
  match r with
  | .ctrl => s.ctrlReg
  | .value => s.valueReg
  | .reload => s.reloadReg

/-- An accepted write that loads the register. -/
def Loads (r : Reg) (t : ApbPayload) (data : UInt32) : Prop :=
  match r with
  | .ctrl => ∃ word, Writes t addrCtrl word ∧ data = word &&& 0xF
  | .value => Writes t addrValue data ∨ Writes t addrReload data
  | .reload => Writes t addrReload data

theorem not_loads (r : Reg) (hu : ¬ Updates t) (data : UInt32) : ¬ r.Loads t data := by
  intro h
  cases r with
  | ctrl =>
    obtain ⟨word, h, -⟩ := h
    exact hu ⟨word, .inl h⟩
  | value => exact hu ⟨data, .inr h⟩
  | reload => exact hu ⟨data, .inr (.inr h)⟩

theorem writes_unique {adr adr' : UInt64} {data data' : UInt32} (h : Writes t adr data)
    (h' : Writes t adr' data') : adr = adr' ∧ data = data' :=
  ⟨h.2.1.symm.trans h'.2.1, Option.some.inj (h.2.2.symm.trans h'.2.2)⟩

/-- A transaction loads the register, and with what, or leaves it. -/
theorem bus (r : Reg) (h : BusMove s t s' o) :
    (∀ data, r.Loads t data ↔ data = r.of s') ∨ (∀ data, ¬ r.Loads t data) ∧ r.of s' = r.of s := by
  have other : ∀ {adr data}, Writes t adr data → adr ≠ addrCtrl → adr ≠ addrValue → adr ≠ addrReload →
      ¬ Updates t := by
    rintro adr data h h0 h1 h2 ⟨d, h' | h' | h'⟩
    · exact h0 (writes_unique h h').1
    · exact h1 (writes_unique h h').1
    · exact h2 (writes_unique h h').1
  cases h with
  | quiet hu => exact .inr ⟨r.not_loads hu, rfl⟩
  | read v ht =>
    refine .inr ⟨r.not_loads ?_, rfl⟩
    rintro ⟨d, h | h | h⟩ <;> exact h.1 ht
  | ctrl data ht =>
    cases r with
    | ctrl =>
      refine .inl fun d => ⟨?_, fun h => ⟨data, ht, h⟩⟩
      rintro ⟨word, h, rfl⟩
      rw [(writes_unique h ht).2]
      rfl
    | value =>
      refine .inr ⟨fun d h => ?_, rfl⟩
      rcases h with h | h <;> exact absurd (writes_unique ht h).1 (by decide)
    | reload => exact .inr ⟨fun d h => absurd (writes_unique ht h).1 (by decide), rfl⟩
  | value data ht =>
    cases r with
    | ctrl =>
      refine .inr ⟨?_, rfl⟩
      rintro d ⟨word, h, -⟩
      exact absurd (writes_unique ht h).1 (by decide)
    | value =>
      refine .inl fun d => ⟨?_, fun h => .inl (h ▸ ht)⟩
      rintro (h | h) <;> exact (writes_unique h ht).2
    | reload => exact .inr ⟨fun d h => absurd (writes_unique ht h).1 (by decide), rfl⟩
  | reload data ht =>
    cases r with
    | ctrl =>
      refine .inr ⟨?_, rfl⟩
      rintro d ⟨word, h, -⟩
      exact absurd (writes_unique ht h).1 (by decide)
    | value =>
      refine .inl fun d => ⟨?_, fun h => .inr (h ▸ ht)⟩
      rintro (h | h) <;> exact (writes_unique h ht).2
    | reload => exact .inl fun d => ⟨fun h => (writes_unique h ht).2, fun h => h ▸ ht⟩
  | ack ht =>
    obtain ⟨data, ht, -⟩ := ht
    refine .inr ⟨r.not_loads (other ht (by decide) (by decide) (by decide)), ?_⟩
    cases r <;> rfl

end Reg

/-! ### What is left -/

def Loaded (r : Reg) (e : Step Timer Op Obs) (data : UInt32) : Prop :=
  ∃ t, e.input = .transport t ∧ r.Loads t data

/-- A turn into reset. -/
def Resets (e : Step Timer Op Obs) : Prop := Turns e ∧ e.pre.prstn = false

/-- A turn from the wait for the next count, which consumes the flag of an acknowledgement. -/
def Consumes (e : Step Timer Op Obs) : Prop := Turns e ∧ ∃ c, e.pre.timerThread = .counted c

/-- The last write of the register since the turn into reset was not of zero. -/
def LeavesReg (r : Reg) (tr : List (Step Timer Op Obs)) : Prop :=
  Latched (fun e => ∃ data, Loaded r e data ∧ data ≠ 0) (fun e => Resets e ∨ ∃ data, Loaded r e data) tr

/-- An acknowledgement has come that no turn has consumed. -/
def LeavesFlag (tr : List (Step Timer Op Obs)) : Prop := Latched Acked Consumes tr

/-- In reset a register holds what was written last; the flag stands until it is consumed, reset or not. -/
structure ResetInv (tr : List (Step Timer Op Obs)) (s : Timer) : Prop where
  regs : s.timerThread = .inReset → ∀ r : Reg, r.of s ≠ 0 ↔ LeavesReg r tr
  flag : s.intrClearInc = true ↔ LeavesFlag tr

theorem leavesReg_snoc {r : Reg} (hr : ¬ Resets e) (hl : ∀ data, ¬ Loaded r e data) :
    LeavesReg r (tr ++ [e]) ↔ LeavesReg r tr := by
  refine latched_keep ?_ ?_
  · rintro ⟨data, h, -⟩
    exact hl data h
  · rintro (h | ⟨data, h⟩)
    · exact hr h
    · exact hl data h

theorem leavesFlag_snoc (ha : ¬ Acked e) (hc : ¬ Consumes e) : LeavesFlag (tr ++ [e]) ↔ LeavesFlag tr :=
  latched_keep ha hc

theorem not_loaded {r : Reg} {data : UInt32} (h : ∀ t, e.input ≠ .transport t) : ¬ Loaded r e data := by
  rintro ⟨t, ht, -⟩
  exact h t ht

theorem not_acked (h : ∀ t, e.input ≠ .transport t) : ¬ Acked e := by
  rintro ⟨t, ht, -⟩
  exact h t ht

theorem HeadMove.flag (h : HeadMove s s') : s'.intrClearInc = s.intrClearInc := by
  cases h <;> rfl

theorem CountMove.flag (h : CountMove s s' o) : s'.intrClearInc = false := by
  cases h with
  | consume => rfl
  | closed hf | zero hf | down hf => exact hf

namespace ResetInv

theorem init (period : Nat) (prstn extin : Bool) : ResetInv [] (new period prstn extin) := by
  refine ⟨fun h => ?_, iff_of_false Bool.false_ne_true not_latched_nil⟩
  cases h

/-- A step that is neither a transaction nor a turn. -/
theorem congr (hs : ResetInv tr s) (hi : ∀ t, e.input ≠ .transport t) (ht : ¬ Turns e)
    (hth : s'.timerThread = .inReset → s.timerThread = .inReset) (hr : ∀ r : Reg, r.of s' = r.of s)
    (hf : s'.intrClearInc = s.intrClearInc) : ResetInv (tr ++ [e]) s' := by
  refine ⟨?_, ?_⟩
  · intro h r
    rw [leavesReg_snoc (fun h => ht h.1) fun _ => not_loaded hi, hr]
    exact hs.regs (hth h) r
  · rw [leavesFlag_snoc (not_acked hi) fun h => ht h.1, hf]
    exact hs.flag

theorem of_eq (hs : ResetInv tr s) (ht : s'.timerThread = s.timerThread) (hr : ∀ r : Reg, r.of s' = r.of s)
    (hf : s'.intrClearInc = s.intrClearInc) : ResetInv tr s' := by
  refine ⟨?_, ?_⟩
  · intro h r
    rw [hr]
    exact hs.regs (ht ▸ h) r
  · rw [hf]
    exact hs.flag

theorem bus (hop : e.input = .transport t) (h : BusMove s t s' o) (hs : ResetInv tr s) :
    ResetInv (tr ++ [e]) s' := by
  have hturn : ¬ Turns e := by
    rintro ⟨h, -⟩
    rw [hop] at h
    cases h
  have hin : s'.timerThread = .inReset → s.timerThread = .inReset := by
    cases h with
    | quiet | read => exact id
    | ctrl | value | reload | ack => cases s.timerThread <;> (intro h; cases h; try rfl)
  have loaded : ∀ (r : Reg) (data : UInt32), Loaded r e data ↔ r.Loads t data := by
    intro r data
    constructor
    · rintro ⟨t', ht', hl⟩
      rw [hop] at ht'
      cases ht'
      exact hl
    · exact fun hl => ⟨t, hop, hl⟩
  refine ⟨?_, ?_⟩
  · intro hr r
    rcases r.bus h with hl | ⟨hl, hreg⟩
    · have hd : Loaded r e (r.of s') := (loaded r _).2 ((hl _).2 rfl)
      refine Iff.trans ?_ (latched_of_clears (.inr ⟨_, hd⟩)).symm
      constructor
      · exact fun hne => ⟨_, hd, hne⟩
      · rintro ⟨data, hd', hne⟩
        rwa [(hl data).1 ((loaded r data).1 hd')] at hne
    · rw [leavesReg_snoc (fun h => hturn h.1) fun data hd => hl data ((loaded r data).1 hd), hreg]
      exact hs.regs (hin hr) r
  · rcases h.acks with ⟨ha, rfl⟩ | ⟨hna, -, hf, -⟩
    · exact iff_of_true rfl (latched_snoc.2 (.inl ⟨t, hop, ha⟩))
    · rw [leavesFlag_snoc ?_ fun h => hturn h.1, hf]
      · exact hs.flag
      · rintro ⟨t', ht', ha⟩
        rw [hop] at ht'
        cases ht'
        exact hna ha

/-- A turn: into reset it clears the registers, from the wait for the next count it consumes the flag. -/
theorem turn (ht : Turns e) (hpre : e.pre = s) (hh : HeadMove a s') (hp : a.prstn = s.prstn)
    (hf : s'.intrClearInc = true ↔ LeavesFlag (tr ++ [e])) : ResetInv (tr ++ [e]) s' := by
  refine ⟨?_, hf⟩
  intro hr r
  cases hh with
  | reset low =>
    have hre : Resets e := ⟨ht, by rw [hpre, ← hp, low]⟩
    refine iff_of_false ?_ ?_
    · cases r <;> exact not_not.2 rfl
    · refine not_latched_of_clears ?_ (.inl hre)
      rintro ⟨data, ⟨t, hop, -⟩, -⟩
      cases ht.1.symm.trans hop
  | disabled | counting => cases hr

theorem step (h : Move s op s' o) (hs : ResetInv tr s) : ResetInv (tr ++ [⟨s, op, s', o⟩]) s' := by
  cases h with
  | @bus b _ t h => exact (bus (e := ⟨s, .transport t, _, o⟩) rfl h hs).of_eq rfl (fun r => by cases r <;> rfl) rfl
  | prstn level | extin level =>
    exact hs.congr (by simp) (fun h => Op.noConfusion h.1) id (fun r => by cases r <;> rfl) rfl
  | waiting hr =>
    exact hs.congr (by simp) (fun h => absurd h.2 (ne_true_of_eq_false hr)) id (fun _ => rfl) rfl
  | @enter b ht hh =>
    refine (turn (turns_enter ht) rfl hh rfl ?_).of_eq rfl (fun r => by cases r <;> rfl) rfl
    have hno : ¬ Consumes ⟨s, .timerThread, { b with evaluating := true }, []⟩ := by
      rintro ⟨-, c, h⟩
      rw [show s.timerThread = .counted c from h] at ht
      rcases ht with h | h | h <;> cases h
    rw [leavesFlag_snoc (not_acked (by simp)) hno, HeadMove.flag hh]
    exact hs.flag
  | @count a b _ c ht hc hh =>
    refine (turn (turns_count ht) rfl hh hc.prstn ?_).of_eq rfl (fun r => by cases r <;> rfl) rfl
    refine iff_of_false ?_ ?_
    · rw [HeadMove.flag hh, CountMove.flag hc]
      exact Bool.false_ne_true
    · exact not_latched_of_clears (not_acked (by simp)) ⟨turns_count ht, c, ht⟩
  | delta hr =>
    exact hs.congr (by simp) (fun h => Op.noConfusion h.1) TimerThread.delta_eq_inReset
      (fun r => by cases r <;> rfl) rfl
  | advance =>
    exact hs.congr (by simp) (fun h => Op.noConfusion h.1) id (fun r => by cases r <;> rfl) rfl
  | timeout =>
    exact hs.congr (by simp) (fun h => Op.noConfusion h.1) (fun h => by cases h)
      (fun r => by cases r <;> rfl) rfl

theorem of_run {period : Nat} {prstn extin : Bool} {is : List Op}
    (h : Run (traced machine) (new period prstn extin) is tr s) : ResetInv tr s :=
  h.trace ResetInv (init period prstn extin) fun _ _ _ _ _ hi hs => hs.step (machine_move hi)

end ResetInv

/-! ### The rising edge -/

/-- A delta cycle with a rising edge of `prstn`. -/
def Releases (s s' : Timer) : Prop :=
  s.prstn = false ∧ s.prstnNext = true ∧ ∃ o, machine s .delta = some (s', o)

/-- The timer at the rising edge, with what is left in it. -/
def released (ctrl value reload : UInt32) (flag extin : Bool) (period now : Nat) : Timer where
  ctrlReg := ctrl
  valueReg := value
  reloadReg := reload
  intrStatus := false
  intrClearInc := flag
  tickPeriod := period
  prstn := true
  prstnNext := true
  extin := extin
  extinNext := extin
  timerint := false
  timerintNext := false
  timerThread := .leftReset
  evaluating := false
  now := now

/-- What is observed from two states is the same in every continuation. -/
def Alike (s s' : Timer) : Prop :=
  ∀ is : List Op, (exec machine s is).map Prod.snd = (exec machine s' is).map Prod.snd

theorem Releases.inReset (h : Releases s s') (hw : s.WaitInv) : s.timerThread = .inReset := by
  obtain ⟨hp, -, o, hm⟩ := h
  have low : ∀ {p : Prop}, s.prstn = true → p := fun hp' => absurd hp' (ne_true_of_eq_false hp)
  cases machine_move hm with
  | delta hr =>
    rcases TimerThread.waits_of_not_runnable hr with ht | ht | ⟨w, ht⟩
    · exact ht
    · exact low (hw.disabled ht).1
    · exact low (hw.counting ht).1

theorem Releases.eq_released (h : Releases s s') (hw : s.WaitInv) : s' =
    released s.ctrlReg s.valueReg s.reloadReg s.intrClearInc s.extinNext s.tickPeriod s.now := by
  have ht := h.inReset hw
  obtain ⟨hp, hi, hl⟩ := hw.inReset ht
  obtain ⟨-, hn, o, hm⟩ := h
  cases machine_move hm with
  | delta =>
    unfold deltaCycle released
    rw [ht, hp, hn, hi, hl]
    rfl

theorem tickPeriod_of_run {period : Nat} {prstn extin : Bool} {is : List Op} {os : List Obs}
    (h : Run machine (new period prstn extin) is os s) : s.tickPeriod = period := by
  refine h.inv (fun s => s.tickPeriod = period) rfl ?_
  intro a op b o hm ha
  have head : ∀ {a b : Timer}, HeadMove a b → b.tickPeriod = a.tickPeriod := by
    intro a b hh
    cases hh <;> rfl
  cases machine_move hm with
  | bus t h => cases h <;> exact ha
  | enter _ hh => exact (head hh).trans ha
  | count c _ hc hh => exact (head hh).trans (by cases hc <;> exact ha)
  | prstn | extin | waiting | delta | advance | timeout => exact ha

/-- A read of a register. -/
def readOp (adr : UInt64) : Op := .transport ⟨⟨.read, adr, some [0, 0, 0, 0], 4, .incomplete, false⟩, none, 4⟩

/-- The timer counts an edge of `extin`. -/
def countEdge : List Op :=
  [.transport ⟨⟨.write, 0x00, some [5, 0, 0, 0], 4, .incomplete, false⟩, none, 4⟩, .timerThread, .extin false,
    .delta, .extin true, .delta, .timerThread]

/-- What is left shows in a read of the register, or in a count that the flag swallows. -/
theorem alike_released_iff {ctrl value reload : UInt32} {flag extin : Bool} {period now : Nat} :
    Alike (released ctrl value reload flag extin period now) (released 0 0 0 false extin period now) ↔
      ctrl = 0 ∧ value = 0 ∧ reload = 0 ∧ flag = false := by
  constructor
  · intro h
    have reads : ∀ adr v v', (exec machine (released ctrl value reload flag extin period now) [readOp adr]).map
        Prod.snd = some [.read adr v] → (exec machine (released 0 0 0 false extin period now)
        [readOp adr]).map Prod.snd = some [.read adr v'] → v = v' := by
      intro adr v v' hv hv'
      have heq := (hv.symm.trans (h [readOp adr])).trans hv'
      simpa using heq
    obtain rfl := reads addrCtrl ctrl 0 rfl rfl
    obtain rfl := reads addrValue value 0 rfl rfl
    obtain rfl := reads addrReload reload 0 rfl rfl
    refine ⟨rfl, rfl, rfl, ?_⟩
    have hcount := h countEdge
    cases flag with
    | false => rfl
    | true =>
      have hleft : (exec machine (released 0 0 0 true extin period now) countEdge).map Prod.snd =
          some [.timerint false, .timerint false] := by cases extin <;> with_unfolding_all rfl
      have hfresh : (exec machine (released 0 0 0 false extin period now) countEdge).map Prod.snd =
          some [.timerint false, .timerint false, .counted now true] := by
        cases extin <;> with_unfolding_all rfl
      rw [hleft, hfresh] at hcount
      cases hcount
  · rintro ⟨rfl, rfl, rfl, rfl⟩ is
    rfl

/-- A run without transactions leaves nothing. -/
theorem not_leaves_of_untouched {s₀ : Timer} {is : List Op} (h : Run (traced machine) s₀ is tr s)
    (hno : ∀ t, .transport t ∉ is) : (∀ r : Reg, ¬ LeavesReg r tr) ∧ ¬ LeavesFlag tr := by
  have untouched : ∀ e ∈ tr, ∀ t, e.input ≠ .transport t := by
    intro e he t hop
    obtain ⟨tr₁, tr₂, rfl⟩ := List.append_of_mem he
    obtain ⟨is₁, is₂, rfl, -⟩ := h.split
    exact hno t (by simp [hop])
  refine ⟨?_, ?_⟩
  · rintro r ⟨tr₁, e, tr₂, rfl, ⟨data, hl, -⟩, -⟩
    exact not_loaded (untouched e (by simp)) hl
  · rintro ⟨tr₁, e, tr₂, rfl, ha, -⟩
    exact not_acked (untouched e (by simp)) ha

end Timer

open Timer

/-- When a reset restores the power-on state. After a rising edge of `prstn` everything observed of the timer is,
in every continuation, what is observed of a new timer that leaves its reset at the same time, iff no register
was last written with something else than zero during the reset, and every acknowledgement has been consumed
by a turn from the wait for the next count. -/
theorem timer_reset_alike_iff (period : Nat) (prstn extin prstn' extin' : Bool) (is is' : List Op)
    (tr tr' : List (Step Timer Op Obs)) (s s' f f' : Timer)
    (hs : Run (traced machine) (new period prstn extin) is tr s) (hrs : Releases s s')
    (hf : Run (traced machine) (new period prstn' extin') is' tr' f) (hrf : Releases f f')
    (hfresh : ∀ t, .transport t ∉ is') (hnow : f.now = s.now) (hextin : f.extinNext = s.extinNext) :
    Alike s' f' ↔ (∀ r : Reg, ¬ LeavesReg r tr) ∧ ¬ LeavesFlag tr := by
  have hws := WaitInv.of_run hs.of_traced
  have hwf := WaitInv.of_run hf.of_traced
  have hregs := (ResetInv.of_run hs).regs (hrs.inReset hws)
  have hregs' := (ResetInv.of_run hf).regs (hrf.inReset hwf)
  obtain ⟨hno, hnf⟩ := not_leaves_of_untouched hf hfresh
  have zero : ∀ r : Reg, r.of f = 0 := fun r => not_not.1 fun h => hno r ((hregs' r).1 h)
  have hc : f.ctrlReg = 0 := zero .ctrl
  have hv : f.valueReg = 0 := zero .value
  have hl : f.reloadReg = 0 := zero .reload
  have hflag : f.intrClearInc = false := Bool.eq_false_iff.2 fun h => hnf ((ResetInv.of_run hf).flag.1 h)
  rw [hrs.eq_released hws, hrf.eq_released hwf, hc, hv, hl, hflag, hnow, hextin, tickPeriod_of_run hs.of_traced,
    tickPeriod_of_run hf.of_traced, alike_released_iff, ← (ResetInv.of_run hs).flag, Bool.not_eq_true]
  have hz : (∀ r : Reg, ¬ LeavesReg r tr) ↔ s.ctrlReg = 0 ∧ s.valueReg = 0 ∧ s.reloadReg = 0 := by
    simp only [← hregs, not_not]
    exact ⟨fun h => ⟨h .ctrl, h .value, h .reload⟩, fun h r => by cases r <;> simp [Reg.of, h]⟩
  rw [hz, and_assoc, and_assoc]

/-- An acknowledgement while ENABLE is clear; then `prstn` falls and is about to rise. -/
def ackBeforeReset : List Op :=
  [.timerThread, .transport ⟨⟨.write, 0x0C, some [1, 0, 0, 0], 4, .incomplete, false⟩, none, 4⟩, .delta,
    .prstn false, .delta, .timerThread, .delta, .prstn true]

/-- A new timer in its first reset, with `prstn` about to rise. -/
def firstReset : List Op := [.timerThread, .delta, .prstn true]

theorem run_ackBeforeReset : ∃ tr s tr' f,
    Run (traced machine) (new 20000 true true) ackBeforeReset tr s ∧ Releases s s.deltaCycle ∧
    Run (traced machine) (new 20000 false true) firstReset tr' f ∧ Releases f f.deltaCycle ∧
    s.intrClearInc = true ∧ f.now = s.now ∧ f.extinNext = s.extinNext ∧
    (exec machine s.deltaCycle countEdge).map Prod.snd ≠ (exec machine f.deltaCycle countEdge).map Prod.snd := by
  have hx : (exec (traced machine) (new 20000 true true) ackBeforeReset).bind (fun r =>
      (exec (traced machine) (new 20000 false true) firstReset).map fun q =>
        decide (r.1.prstn = false ∧ r.1.prstnNext = true ∧ r.1.timerThread.runnable = false ∧
          q.1.prstn = false ∧ q.1.prstnNext = true ∧ q.1.timerThread.runnable = false ∧
          r.1.intrClearInc = true ∧ q.1.now = r.1.now ∧ q.1.extinNext = r.1.extinNext ∧
          (exec machine r.1.deltaCycle countEdge).map Prod.snd ≠
            (exec machine q.1.deltaCycle countEdge).map Prod.snd)) = some true := by decide +kernel
  obtain ⟨⟨s, tr⟩, he, hx⟩ := Option.bind_eq_some_iff.1 hx
  obtain ⟨⟨f, tr'⟩, hf, hx⟩ := Option.map_eq_some_iff.1 hx
  obtain ⟨hp, hn, hr, hp', hn', hr', h⟩ := of_decide_eq_true hx
  exact ⟨tr, s, tr', f, Run.of_exec he, ⟨hp, hn, _, machine_delta hr⟩, Run.of_exec hf,
    ⟨hp', hn', _, machine_delta hr'⟩, h⟩

theorem timer_reset_alike_iff_ackBeforeReset : ∃ tr s tr' f,
    Run (traced machine) (new 20000 true true) ackBeforeReset tr s ∧
    Run (traced machine) (new 20000 false true) firstReset tr' f ∧
    ¬ Alike s.deltaCycle f.deltaCycle := by
  obtain ⟨tr, s, tr', f, hs, hrs, hf, hrf, hflag, hnow, hextin, -⟩ := run_ackBeforeReset
  refine ⟨tr, s, tr', f, hs, hf, fun h => ?_⟩
  have hiff := timer_reset_alike_iff 20000 true true false true ackBeforeReset firstReset tr tr' s s.deltaCycle f
    f.deltaCycle hs hrs hf hrf (by simp [firstReset]) hnow hextin
  exact (hiff.1 h).2 ((ResetInv.of_run hs).flag.1 hflag)

/-- The flag of the acknowledgement survives the reset and swallows the first count after it. -/
theorem not_alike_ackBeforeReset : ¬ ∀ (period : Nat) (prstn extin prstn' extin' : Bool) (is is' : List Op)
    (tr tr' : List (Step Timer Op Obs)) (s s' f f' : Timer),
    Run (traced machine) (new period prstn extin) is tr s → Releases s s' →
    Run (traced machine) (new period prstn' extin') is' tr' f → Releases f f' →
    (∀ t, .transport t ∉ is') → f.now = s.now → f.extinNext = s.extinNext → Alike s' f' := by
  intro h
  obtain ⟨tr, s, tr', f, hs, hrs, hf, hrf, -, hnow, hextin, hne⟩ := run_ackBeforeReset
  exact hne (h 20000 true true false true ackBeforeReset firstReset tr tr' s _ f _ hs hrs hf hrf
    (by simp [firstReset]) hnow hextin countEdge)

end CdcVp
