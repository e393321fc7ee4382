import CdcVp.Timer

/-!
# The moves of the timer

`Move` lists what a step of the machine can do, with the state it leaves written out. A transaction reads,
writes one of the three registers of the counter, acknowledges, or does nothing.
-/

namespace CdcVp
open FlatStore LittleEndian Runs

namespace TimerThread
variable {t : TimerThread}

/-- Where the thread is when the kernel cannot resume it. -/
theorem waits_of_not_runnable (h : t.runnable = false) : t = .inReset ∨ t = .disabled ∨ ∃ w, t = .counting w := by
  cases t with
  | inReset => exact .inl rfl
  | disabled => exact .inr (.inl rfl)
  | counting w => exact .inr (.inr ⟨w, rfl⟩)
  | start | leftReset | leftDisabled | counted => cases h

theorem ne_counted (h : t.runnable = false) (c : Cause) : t ≠ .counted c := by
  rcases waits_of_not_runnable h with rfl | rfl | ⟨w, rfl⟩ <;> exact TimerThread.noConfusion

end TimerThread

namespace Timer
variable {s s' : Timer} {op : Op} {o : List Obs} {t : ApbPayload}

/-- The word of a write that passes the checks of `b_transport`. -/
def wordOf (t : ApbPayload) : Option UInt32 :=
  if t.dataLength ≠ 4 ∨ t.byteEnablePtr ≠ none ∨ t.streamingWidth < t.dataLength then none
  else t.dataPtr.map fun data => UInt32.ofNat (value (data.take 4))

/-- An accepted write of `data` to the register at `adr`. -/
def Writes (t : ApbPayload) (adr : UInt64) (data : UInt32) : Prop :=
  t.command ≠ .read ∧ t.address = adr ∧ wordOf t = some data

/-- An accepted write of INTSTATUS with bit 0 set. -/
def Acknowledges (t : ApbPayload) : Prop := ∃ data, Writes t addrIntStatus data ∧ data &&& 0x1 ≠ 0

/-- An accepted write of one of the registers that `update_reg` is about. -/
def Updates (t : ApbPayload) : Prop :=
  ∃ data, Writes t addrCtrl data ∨ Writes t addrValue data ∨ Writes t addrReload data

/-- The step is an accepted acknowledgement. -/
def Acked (e : Step Timer Op Obs) : Prop := ∃ t, e.input = .transport t ∧ Acknowledges t

/-- The step is an accepted write of CTRL, VALUE or RELOAD. -/
def Updated (e : Step Timer Op Obs) : Prop := ∃ t, e.input = .transport t ∧ Updates t

instance (t : ApbPayload) (adr : UInt64) (data : UInt32) : Decidable (Writes t adr data) :=
  inferInstanceAs (Decidable (_ ∧ _))

instance (t : ApbPayload) : Decidable (Acknowledges t) :=
  decidable_of_iff (∃ data ∈ wordOf t, Writes t addrIntStatus data ∧ data &&& 0x1 ≠ 0)
    ⟨fun ⟨data, _, h⟩ => ⟨data, h⟩, fun ⟨data, h⟩ => ⟨data, h.1.2.2, h⟩⟩

instance (t : ApbPayload) : Decidable (Updates t) :=
  decidable_of_iff (∃ data ∈ wordOf t, Writes t addrCtrl data ∨ Writes t addrValue data ∨
      Writes t addrReload data)
    ⟨fun ⟨data, _, h⟩ => ⟨data, h⟩, fun ⟨data, h⟩ =>
      ⟨data, by rcases h with h | h | h <;> exact h.2.2, h⟩⟩

instance : DecidablePred Acked := fun e =>
  match h : e.input with
  | .transport t => decidable_of_iff (Acknowledges t) (by simp [Acked, h])
  | .prstn _ | .extin _ | .timerThread | .delta | .advance _ => isFalse (by simp [Acked, h])

instance : DecidablePred Updated := fun e =>
  match h : e.input with
  | .transport t => decidable_of_iff (Updates t) (by simp [Updated, h])
  | .prstn _ | .extin _ | .timerThread | .delta | .advance _ => isFalse (by simp [Updated, h])

/-- What a transaction does. -/
inductive BusMove (s : Timer) (t : ApbPayload) : Timer → List Obs → Prop
  | quiet (hu : ¬ Updates t) (ha : ¬ Acknowledges t) : BusMove s t s []
  | read (v : UInt32) (ht : t.command = .read) (hv : s.readReg t.address = some v) :
      BusMove s t s [.read t.address v]
  | ctrl (data : UInt32) (ht : Writes t addrCtrl data) : BusMove s t
      { s with ctrlReg := data &&& 0xF, timerThread := s.timerThread.notifyUpdate } []
  | value (data : UInt32) (ht : Writes t addrValue data) : BusMove s t
      { s with valueReg := data, timerThread := s.timerThread.notifyUpdate } []
  | reload (data : UInt32) (ht : Writes t addrReload data) : BusMove s t
      { s with reloadReg := data, valueReg := data, timerThread := s.timerThread.notifyUpdate } []
  | ack (ht : Acknowledges t) : BusMove s t
      { s with intrStatus := false, intrClearInc := true, timerThread := s.timerThread.notifyClear } []

theorem not_updates (h : t.address ≠ addrCtrl ∧ t.address ≠ addrValue ∧ t.address ≠ addrReload) :
    ¬ Updates t := by
  rintro ⟨data, ⟨-, ha, -⟩ | ⟨-, ha, -⟩ | ⟨-, ha, -⟩⟩
  · exact h.1 ha
  · exact h.2.1 ha
  · exact h.2.2 ha

/-- A transaction whose payload writes no word. -/
theorem BusMove.refused (h : t.command = .read ∨ wordOf t = none) : BusMove s t s [] := by
  have hno : ∀ adr data, ¬ Writes t adr data := by
    rintro adr data ⟨hc, -, hw⟩
    rcases h with h | h
    · exact hc h
    · cases h.symm.trans hw
  refine .quiet ?_ ?_
  · rintro ⟨data, h | h | h⟩
    · exact hno _ _ h
    · exact hno _ _ h
    · exact hno _ _ h
  · rintro ⟨data, h, -⟩
    exact hno _ _ h

theorem writeReg_move {data : UInt32} (hc : t.command ≠ .read) (hd : wordOf t = some data) :
    (s.writeReg t.address data = none ∧ BusMove s t s []) ∨
      ∃ a, s.writeReg t.address data = some a ∧ BusMove s t a [] := by
  have noAck : t.address ≠ addrIntStatus ∨ data &&& 0x1 = 0 → ¬ Acknowledges t := by
    rintro h ⟨d, ⟨-, ha, hw⟩, hbit⟩
    obtain rfl := Option.some.inj (hd.symm.trans hw)
    rcases h with h | h
    · exact h ha
    · exact hbit h
  unfold writeReg
  by_cases h0 : t.address = addrCtrl
  · rw [if_pos h0]
    exact .inr ⟨_, rfl, .ctrl data ⟨hc, h0, hd⟩⟩
  rw [if_neg h0]
  by_cases h1 : t.address = addrValue
  · rw [if_pos h1]
    exact .inr ⟨_, rfl, .value data ⟨hc, h1, hd⟩⟩
  rw [if_neg h1]
  by_cases h2 : t.address = addrReload
  · rw [if_pos h2]
    exact .inr ⟨_, rfl, .reload data ⟨hc, h2, hd⟩⟩
  rw [if_neg h2]
  have hu : ¬ Updates t := not_updates ⟨h0, h1, h2⟩
  by_cases h3 : t.address = addrIntStatus
  · rw [if_pos h3]
    by_cases hbit : data &&& 0x1 = 0
    · rw [if_neg (not_not.2 hbit)]
      exact .inr ⟨_, rfl, .quiet hu (noAck (.inr hbit))⟩
    · rw [if_pos hbit]
      exact .inr ⟨_, rfl, .ack ⟨data, ⟨hc, h3, hd⟩, hbit⟩⟩
  · rw [if_neg h3]
    exact .inl ⟨rfl, .quiet hu (noAck (.inl h3))⟩

/-- What a transaction leaves of the timer. -/
def effect (t : ApbPayload) (s : Timer) : Timer :=
  match wordOf t with
  | none => s
  | some data => if t.command = .read then s else (s.writeReg t.address data).getD s

theorem effect_refused (h : t.command = .read ∨ wordOf t = none) : effect t s = s := by
  unfold effect
  split
  · rfl
  · rename_i data hd
    refine if_pos (h.resolve_right fun hn => ?_)
    rw [hn] at hd
    cases hd

/-- A transaction that goes through changes the timer by its effect, and shows at most what it reads. -/
theorem bTransport_effect {t' : ApbPayload} (h : s.bTransport t = some (s', t', o)) : s' = effect t s ∧
    (o = [] ∨ ∃ v, t.command = .read ∧ s.readReg t.address = some v ∧ o = [.read t.address v]) := by
  unfold bTransport at h
  split at h
  · rename_i hlen
    cases h
    exact ⟨(effect_refused (.inr (if_pos (.inl hlen)))).symm, .inl rfl⟩
  rename_i hlen
  split at h
  · rename_i hb
    cases h
    exact ⟨(effect_refused (.inr (if_pos (.inr hb)))).symm, .inl rfl⟩
  rename_i hb
  dsimp only at h
  by_cases hc : t.command = .read
  · rw [if_pos hc] at h
    split at h
    · cases h
      exact ⟨(effect_refused (.inl hc)).symm, .inl rfl⟩
    · rename_i v hv
      split at h
      · cases h
      · cases h
        exact ⟨(effect_refused (.inl hc)).symm, .inr ⟨v, hc, hv, rfl⟩⟩
  · rw [if_neg hc] at h
    split at h
    · cases h
    rename_i hlong
    have hd : wordOf t = some (UInt32.ofNat (LittleEndian.value ((t.dataPtr.getD []).take 4))) := by
      rw [wordOf, if_neg (not_or.2 ⟨hlen, hb⟩)]
      cases hp : t.dataPtr with
      | none =>
        rw [hp] at hlong
        exact absurd (by decide) hlong
      | some data => rfl
    rw [effect, hd]
    dsimp only
    rw [if_neg hc]
    split at h
    · rename_i hn
      cases h
      rw [hn]
      exact ⟨rfl, .inl rfl⟩
    · rename_i b hb
      cases h
      rw [hb]
      exact ⟨rfl, .inl rfl⟩

theorem effect_move (s : Timer) (t : ApbPayload) : BusMove s t (effect t s) [] := by
  by_cases hr : t.command = .read ∨ wordOf t = none
  · rw [effect_refused hr]
    exact .refused hr
  obtain ⟨hc, hn⟩ := not_or.1 hr
  obtain ⟨data, hd⟩ := Option.ne_none_iff_exists'.1 hn
  rw [effect, hd]
  dsimp only
  rw [if_neg hc]
  rcases writeReg_move (s := s) hc hd with ⟨hw, hm⟩ | ⟨a, ha, hm⟩
  · rw [hw]
    exact hm
  · rw [ha]
    exact hm

theorem bTransport_move {t' : ApbPayload} (h : s.bTransport t = some (s', t', o)) : BusMove s t s' o := by
  obtain ⟨rfl, rfl | ⟨v, hc, hv, rfl⟩⟩ := bTransport_effect h
  · exact effect_move s t
  · rw [effect_refused (.inl hc)]
    exact .read v hc hv

/-- A write of another register is no acknowledgement, and leaves the interrupt. -/
theorem BusMove.acks {t : ApbPayload} (h : BusMove s t s' o) :
    (Acknowledges t ∧ s' = { s with
      intrStatus := false
      intrClearInc := true
      timerThread := s.timerThread.notifyClear }) ∨
    (¬ Acknowledges t ∧ s'.intrStatus = s.intrStatus ∧ s'.intrClearInc = s.intrClearInc ∧
      s'.timerintNext = s.timerintNext ∧ ∀ c, s.timerThread = .counted c → s'.timerThread = .counted c) := by
  have other : ∀ adr data, Writes t adr data → adr ≠ addrIntStatus → ¬ Acknowledges t := by
    rintro adr data ⟨-, ha, -⟩ hne ⟨d, ⟨-, ha', -⟩, -⟩
    exact hne (ha.symm.trans ha')
  have notify : ∀ c, s.timerThread = .counted c → s.timerThread.notifyUpdate = .counted c := by
    intro c hc
    rw [hc]
    rfl
  cases h with
  | quiet _ ha => exact .inr ⟨ha, rfl, rfl, rfl, fun _ => id⟩
  | read v ht =>
    refine .inr ⟨?_, rfl, rfl, rfl, fun _ => id⟩
    rintro ⟨d, h, -⟩
    exact h.1 ht
  | ctrl data ht => exact .inr ⟨other _ _ ht (by decide), rfl, rfl, rfl, notify⟩
  | value data ht => exact .inr ⟨other _ _ ht (by decide), rfl, rfl, rfl, notify⟩
  | reload data ht => exact .inr ⟨other _ _ ht (by decide), rfl, rfl, rfl, notify⟩
  | ack ht => exact .inl ⟨ht, rfl⟩

/-- What the body after the wait for the next count does: it consumes the flag of an acknowledgement, finds the
gate closed, reloads at zero, or counts down. -/
inductive CountMove (s : Timer) : Timer → List Obs → Prop
  | consume (flag : s.intrClearInc = true) :
      CountMove s { s with intrClearInc := false, timerintNext := false } []
  | closed (flag : s.intrClearInc = false) (gated : s.gated = true) : CountMove s s []
  | zero (flag : s.intrClearInc = false) (gated : s.gated = false) (h : s.valueReg = 0) :
      CountMove s { s with
        valueReg := s.reloadReg
        intrStatus := true
        timerintNext := if s.ctrlReg &&& opsIntrEn ≠ 0 then true else s.timerintNext } [.counted s.now true]
  | down (flag : s.intrClearInc = false) (gated : s.gated = false) (h : s.valueReg ≠ 0) :
      CountMove s { s with valueReg := s.valueReg - 1 } [.counted s.now false]

theorem count_move (s : Timer) : CountMove s s.count.1 s.count.2 := by
  unfold count
  split
  · rename_i hf
    exact .consume hf
  rename_i hf
  have hf : s.intrClearInc = false := Bool.eq_false_iff.2 hf
  split
  · rename_i hg
    exact .closed hf hg
  rename_i hg
  have hg : s.gated = false := Bool.eq_false_iff.2 hg
  split
  · rename_i hz
    exact .zero hf hg hz
  · rename_i hz
    exact .down hf hg hz

theorem CountMove.prstn (h : CountMove s s' o) : s'.prstn = s.prstn := by cases h <;> rfl

/-- What the head of the loop does: it resets, waits for a write, or waits for the next count. -/
inductive HeadMove (s : Timer) : Timer → Prop
  | reset (low : s.prstn = false) : HeadMove s s.reset
  | disabled (high : s.prstn = true) (off : s.enabled = false) :
      HeadMove s { s with timerThread := .disabled }
  | counting (high : s.prstn = true) (on : s.enabled = true) :
      HeadMove s { s with timerThread := .counting (if s.exClk then .clock else .tick s.now) }

theorem head_move (s : Timer) : HeadMove s s.head := by
  unfold head
  split
  · rename_i hp
    exact .reset hp
  rename_i hp
  have hp : s.prstn = true := Bool.not_eq_false _ ▸ hp
  split
  · rename_i he
    exact .disabled hp he
  · rename_i he
    exact .counting hp (Bool.not_eq_false _ ▸ he)

/-- What a step of the machine does. -/
inductive Move (s : Timer) : Op → Timer → List Obs → Prop
  | bus {s' : Timer} {o : List Obs} (t : ApbPayload) (h : BusMove s t s' o) :
      Move s (.transport t) { s' with evaluating := true } o
  | prstn (level : Bool) : Move s (.prstn level) { s with prstnNext := level, evaluating := true } []
  | extin (level : Bool) : Move s (.extin level) { s with extinNext := level, evaluating := true } []
  | waiting (h : s.timerThread.runnable = false) : Move s .timerThread s []
  | enter {s' : Timer} (h : s.timerThread = .start ∨ s.timerThread = .leftReset ∨ s.timerThread = .leftDisabled)
      (hh : HeadMove s s') : Move s .timerThread { s' with evaluating := true } []
  | count {a s' : Timer} {o : List Obs} (c : Cause) (h : s.timerThread = .counted c) (hc : CountMove s a o)
      (hh : HeadMove a s') : Move s .timerThread { s' with evaluating := true } o
  | delta (h : s.timerThread.runnable = false) : Move s .delta s.deltaCycle [.timerint s.timerintNext]
  | advance (time : Nat) (settled : s.Settled) (later : s.now < time)
      (hno : ∀ since, s.timerThread = .counting (.tick since) → time < since + s.tickPeriod) :
      Move s (.advance time) { s with now := time } []
  | timeout (since : Nat) (h : s.timerThread = .counting (.tick since)) (settled : s.Settled)
      (later : s.now < since + s.tickPeriod) : Move s (.advance (since + s.tickPeriod))
        { s with now := since + s.tickPeriod, timerThread := .counted .timeout } []

theorem machine_move (h : machine s op = some (s', o)) : Move s op s' o := by
  cases op with
  | transport t =>
    obtain ⟨⟨a, t', o'⟩, hb, heq⟩ := Option.map_eq_some_iff.1 h
    cases heq
    exact .bus t (bTransport_move hb)
  | prstn level =>
    cases h
    exact .prstn level
  | extin level =>
    cases h
    exact .extin level
  | timerThread =>
    simp only [machine] at h
    split at h
    · rename_i ht
      cases h
      exact .enter (.inl ht) (head_move s)
    · rename_i ht
      cases h
      exact .enter (.inr (.inl ht)) (head_move s)
    · rename_i ht
      cases h
      exact .enter (.inr (.inr ht)) (head_move s)
    · rename_i c ht
      cases h
      exact .count c ht (count_move s) (head_move _)
    · rename_i h0 h1 h2 h3
      cases h
      refine .waiting ?_
      cases ht : s.timerThread with
      | start => exact absurd ht h0
      | leftReset => exact absurd ht h1
      | leftDisabled => exact absurd ht h2
      | counted c => exact absurd ht (h3 c)
      | inReset | disabled | counting => rfl
  | delta =>
    simp only [machine] at h
    split at h
    · cases h
    · rename_i hr
      cases h
      exact .delta (Bool.eq_false_iff.2 hr)
  | advance time =>
    simp only [machine] at h
    split at h
    · rename_i hs
      split at h
      · rename_i since ht
        split at h
        · rename_i hlt
          cases h
          refine .advance time hs.1 hs.2 ?_
          intro since' hs'
          rw [ht] at hs'
          cases hs'
          exact hlt
        · split at h
          · rename_i heq
            cases h
            exact heq ▸ .timeout since ht hs.1 (heq ▸ hs.2)
          · cases h
      · rename_i hno
        cases h
        exact .advance time hs.1 hs.2 fun since hs' => absurd hs' (hno since)
    · cases h

/-! ### The kernel's moves, where they are allowed -/

theorem machine_enter (h : s.timerThread = .start ∨ s.timerThread = .leftReset ∨ s.timerThread = .leftDisabled) :
    machine s .timerThread = some ({ s.head with evaluating := true }, []) := by
  unfold machine
  rcases h with h | h | h <;> rw [h]

theorem machine_count {c : Cause} (h : s.timerThread = .counted c) :
    machine s .timerThread = some ({ s.count.1.head with evaluating := true }, s.count.2) := by
  unfold machine
  rw [h]

theorem machine_waiting (h : s.timerThread.runnable = false) : machine s .timerThread = some (s, []) := by
  unfold machine
  rcases TimerThread.waits_of_not_runnable h with h | h | ⟨w, h⟩ <;> rw [h]

theorem machine_delta (h : s.timerThread.runnable = false) :
    machine s .delta = some (s.deltaCycle, [.timerint s.timerintNext]) := by
  unfold machine
  dsimp only
  rw [h, if_neg Bool.false_ne_true]

theorem machine_advance {time : Nat} (settled : s.Settled) (later : s.now < time)
    (hno : ∀ since, s.timerThread = .counting (.tick since) → time < since + s.tickPeriod) :
    machine s (.advance time) = some ({ s with now := time }, []) := by
  unfold machine
  dsimp only
  rw [if_pos ⟨settled, later⟩]
  split
  · rename_i since ht
    rw [if_pos (hno since ht)]
  · rfl

theorem machine_timeout {since : Nat} (ht : s.timerThread = .counting (.tick since)) (settled : s.Settled)
    (later : s.now < since + s.tickPeriod) : machine s (.advance (since + s.tickPeriod)) =
      some ({ s with now := since + s.tickPeriod, timerThread := .counted .timeout }, []) := by
  unfold machine
  dsimp only
  rw [if_pos ⟨settled, later⟩, ht]
  dsimp only
  rw [if_neg (Nat.lt_irrefl _), if_pos rfl]

end Timer
end CdcVp
