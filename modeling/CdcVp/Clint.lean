import CdcVp.CpuBase
import CdcVp.FlatStore
import CdcVp.LittleEndian
import CdcVp.Runs
import CdcVp.ScEvent
import CdcVp.Tlm

/-!
# `clint_tlm`

The register file, `reschedule` and the loop of `timer_proc`, with the part of the kernel they see: the
clock, the notification pending on `cmp_event_` and whether `timer_proc` is waiting for it. `machine` is
the component in the system: a transaction, or one of the kernel's moves. Time is in picoseconds, the
time resolution.
-/

namespace CdcVp
open FlatStore LittleEndian Runs ScEvent

/-- Where `timer_proc` is: not started, at `wait(cmp_event_)`, or past it and runnable. -/
inductive TimerProc
  | start
  | waiting
  | woken
deriving DecidableEq, Repr

/-- `clint_tlm`. `now` is `sc_time_stamp().value()`. -/
structure Clint where
  cpu : IrqPort
  mtimecmp : UInt64
  msip : UInt32
  cmpEvent : Notification
  timerProc : TimerProc
  now : UInt64
deriving DecidableEq

namespace Clint

def kRegMsip : UInt64 := 0x0000
def kRegMtimecmp : UInt64 := 0x4000
def kRegMtime : UInt64 := 0xBFF8
def kScaler : UInt64 := 1000000
def kCauseSoftware : Nat := 3
def kCauseTimer : Nat := 7

def new : Clint where
  cpu := {}
  mtimecmp := 0
  msip := 0
  cmpEvent := .none
  timerProc := .start
  now := 0

/-- Bytes `[sub, sub + len)` of a 64-bit value; `none` where the copy leaves the 8 bytes. -/
def sliceRead (v : UInt64) (sub len : Nat) : Option (List UInt8) :=
  if sub + len ≤ 8 then some (((bytes 8 v.toNat).drop sub).take len) else none

def sliceWrite (v : UInt64) (sub len : Nat) (src : List UInt8) : Option UInt64 :=
  if sub + len ≤ 8 then some (UInt64.ofNat (value (blit (bytes 8 v.toNat) sub (src.take len)))) else none

def nowMtime (c : Clint) : UInt64 := c.now / kScaler

/-- The delay `reschedule` notifies with; the product is 64 bits wide, as `sc_time::from_value` takes it. -/
def rescheduleDelay (c : Clint) : Nat :=
  let goal := c.mtimecmp * kScaler
  if goal > c.now then (goal - c.now).toNat else 0

def reschedule (c : Clint) : Clint :=
  if c.mtimecmp = 0 then c
  else { c with cmpEvent := c.cmpEvent.notify c.now.toNat c.rescheduleDelay }

/-- One turn of the loop of `timer_proc`, from one `wait` to the next. -/
def timerTurn (c : Clint) : Clint :=
  let c := { c with timerProc := .waiting }
  if c.mtimecmp ≠ 0 ∧ c.nowMtime ≥ c.mtimecmp then { c with cpu := c.cpu.setIrq kCauseTimer true }
  else { c with cpu := c.cpu.setIrq kCauseTimer false }.reschedule

/-- `clint_tlm::b_transport`; `none` where it copies past the 8 bytes of a register, which is undefined. -/
def bTransport (c : Clint) (trans : Payload) (delay : Nat) : Option (Clint × Payload × Nat) :=
  let delay := delay + 10000
  let addr := trans.address
  let len := trans.dataLength
  let isRead := trans.command = .read
  match trans.dataPtr with
  | none => some (c, { trans with responseStatus := .genericError }, delay)
  | some ptr =>
    if addr = kRegMsip ∧ len = 4 then
      if isRead then
        some (c, { trans with
          dataPtr := some (blit ptr 0 (bytes 4 c.msip.toNat)), responseStatus := .ok }, delay)
      else
        let msip := UInt32.ofNat (value (ptr.take 4)) &&& 1
        some ({ c with msip := msip, cpu := c.cpu.setIrq kCauseSoftware (msip ≠ 0) },
          { trans with responseStatus := .ok }, delay)
    else if addr ≥ kRegMtimecmp ∧ addr + len.toUInt64 ≤ kRegMtimecmp + 8 then
      let sub := (addr - kRegMtimecmp).toUInt32.toNat
      if isRead then
        (sliceRead c.mtimecmp sub len.toNat).map fun bs =>
          (c, { trans with dataPtr := some (blit ptr 0 bs), responseStatus := .ok }, delay)
      else
        (sliceWrite c.mtimecmp sub len.toNat ptr).map fun v =>
          ({ c with mtimecmp := v, cmpEvent := c.cmpEvent.notify c.now.toNat 0 },
            { trans with responseStatus := .ok }, delay)
    else if addr ≥ kRegMtime ∧ addr + len.toUInt64 ≤ kRegMtime + 8 then
      let sub := (addr - kRegMtime).toUInt32.toNat
      if isRead then
        (sliceRead c.nowMtime sub len.toNat).map fun bs =>
          (c, { trans with dataPtr := some (blit ptr 0 bs), responseStatus := .ok }, delay)
      else some (c, { trans with responseStatus := .ok }, delay)
    else some (c, { trans with responseStatus := .addressError }, delay)

/-! ### The component in the system -/

/-- A transaction, or a move of the kernel: start `timer_proc`, resume it, end the delta cycle, advance
time, or deliver a notification that has fallen due. -/
inductive Op
  | transport (trans : Payload) (delay : Nat)
  | start
  | wake
  | delta
  | advance (time : UInt64)
  | expire

/-- `wrote`: a write reached `mtimecmp`. `woke`: `timer_proc` went round its loop. -/
inductive Event
  | wrote
  | woke
  | advanced
  | expired
deriving DecidableEq, Repr

def WritesMtimecmp (t : Payload) : Prop :=
  t.command ≠ .read ∧ t.dataPtr.isSome ∧ ¬ (t.address = kRegMsip ∧ t.dataLength = 4) ∧
    t.address ≥ kRegMtimecmp ∧ t.address + t.dataLength.toUInt64 ≤ kRegMtimecmp + 8

instance (t : Payload) : Decidable (WritesMtimecmp t) := by unfold WritesMtimecmp; infer_instance

def WritesMsip (t : Payload) : Prop :=
  t.command ≠ .read ∧ t.dataPtr.isSome ∧ t.address = kRegMsip ∧ t.dataLength = 4

/-- The kernel ends the delta cycle or advances time only when nothing is left to run, and advances no
further than the pending notification. -/
def machine : Machine Clint Op Event := fun c op =>
  match op with
  | .transport t delay =>
    (c.bTransport t delay).map fun r => (r.1, if WritesMtimecmp t then [.wrote] else [])
  | .start => if c.timerProc = .start then some ({ c with timerProc := .waiting }, []) else none
  | .wake => if c.timerProc = .woken then some (c.timerTurn, [.woke]) else none
  | .delta =>
    if c.timerProc = .waiting ∧ c.cmpEvent = .delta then
      some ({ c with cmpEvent := .none, timerProc := .woken }, [])
    else none
  | .advance time =>
    if c.timerProc = .waiting ∧ c.now < time then
      match c.cmpEvent with
      | .none => some ({ c with now := time }, [.advanced])
      | .delta => none
      | .timed t => if time.toNat ≤ t then some ({ c with now := time }, [.advanced]) else none
    else none
  | .expire =>
    if c.timerProc = .waiting ∧ c.cmpEvent = .timed c.now.toNat then
      some ({ c with cmpEvent := .none, timerProc := .woken }, [.expired])
    else none

/-- All that an operation can do. -/
theorem step_cases {c c' : Clint} {op : Op} {o : List Event} (h : machine c op = some (c', o)) :
    (∃ t d r, op = .transport t d ∧ c.bTransport t d = some r ∧ c' = r.1 ∧
      o = if WritesMtimecmp t then [.wrote] else []) ∨
    (op = .start ∧ c.timerProc = .start ∧ c' = { c with timerProc := .waiting } ∧ o = []) ∨
    (op = .wake ∧ c.timerProc = .woken ∧ c' = c.timerTurn ∧ o = [.woke]) ∨
    (op = .delta ∧ c.timerProc = .waiting ∧ c.cmpEvent = .delta ∧
      c' = { c with cmpEvent := .none, timerProc := .woken } ∧ o = []) ∨
    (∃ time, op = .advance time ∧ c.timerProc = .waiting ∧ c.now < time ∧
      (c.cmpEvent = .none ∨ ∃ t, c.cmpEvent = .timed t ∧ time.toNat ≤ t) ∧
      c' = { c with now := time } ∧ o = [.advanced]) ∨
    (op = .expire ∧ c.timerProc = .waiting ∧ c.cmpEvent = .timed c.now.toNat ∧
      c' = { c with cmpEvent := .none, timerProc := .woken } ∧ o = [.expired]) := by
  cases op with
  | transport t d =>
    obtain ⟨r, hr, he⟩ := Option.map_eq_some_iff.1 h
    obtain ⟨hc, ho⟩ := Prod.mk.inj he
    exact .inl ⟨t, d, r, rfl, hr, hc.symm, ho.symm⟩
  | start =>
    obtain ⟨hg, he⟩ := Option.ite_none_right_eq_some.1 h
    obtain ⟨hc, ho⟩ := Prod.mk.inj (Option.some.inj he)
    exact .inr (.inl ⟨rfl, hg, hc.symm, ho.symm⟩)
  | wake =>
    obtain ⟨hg, he⟩ := Option.ite_none_right_eq_some.1 h
    obtain ⟨hc, ho⟩ := Prod.mk.inj (Option.some.inj he)
    exact .inr (.inr (.inl ⟨rfl, hg, hc.symm, ho.symm⟩))
  | delta =>
    obtain ⟨hg, he⟩ := Option.ite_none_right_eq_some.1 h
    obtain ⟨hc, ho⟩ := Prod.mk.inj (Option.some.inj he)
    exact .inr (.inr (.inr (.inl ⟨rfl, hg.1, hg.2, hc.symm, ho.symm⟩)))
  | advance time =>
    obtain ⟨hg, he⟩ := Option.ite_none_right_eq_some.1 h
    refine .inr (.inr (.inr (.inr (.inl ?_))))
    cases hev : c.cmpEvent with
    | none =>
      rw [hev] at he
      obtain ⟨hc, ho⟩ := Prod.mk.inj (Option.some.inj he)
      exact ⟨time, rfl, hg.1, hg.2, .inl rfl, hc.symm, ho.symm⟩
    | delta =>
      rw [hev] at he
      cases he
    | timed t =>
      rw [hev] at he
      obtain ⟨hle, he⟩ := Option.ite_none_right_eq_some.1 he
      obtain ⟨hc, ho⟩ := Prod.mk.inj (Option.some.inj he)
      exact ⟨time, rfl, hg.1, hg.2, .inr ⟨t, rfl, hle⟩, hc.symm, ho.symm⟩
  | expire =>
    obtain ⟨hg, he⟩ := Option.ite_none_right_eq_some.1 h
    obtain ⟨hc, ho⟩ := Prod.mk.inj (Option.some.inj he)
    exact .inr (.inr (.inr (.inr (.inr ⟨rfl, hg.1, hg.2, hc.symm, ho.symm⟩))))

/-! ### What a transaction does to the timer -/

/-- The two states agree on everything but the software interrupt. -/
structure SameTimer (c c' : Clint) : Prop where
  mtimecmp : c'.mtimecmp = c.mtimecmp
  cmpEvent : c'.cmpEvent = c.cmpEvent
  timerProc : c'.timerProc = c.timerProc
  now : c'.now = c.now
  level : c'.cpu.level kCauseTimer = c.cpu.level kCauseTimer

theorem SameTimer.refl (c : Clint) : SameTimer c c := ⟨rfl, rfl, rfl, rfl, rfl⟩

/-- A transaction changes nothing, writes `msip` and drives MSIP, or writes `mtimecmp` and notifies
`cmp_event_` for the next delta cycle. -/
theorem bTransport_inv {c : Clint} {t : Payload} {d : Nat} {r : Clint × Payload × Nat}
    (h : c.bTransport t d = some r) : (¬ WritesMtimecmp t ∧ ¬ WritesMsip t ∧ r.1 = c) ∨
      (¬ WritesMtimecmp t ∧ WritesMsip t ∧ ∃ ptr, t.dataPtr = some ptr ∧ r.1 = { c with
        msip := UInt32.ofNat (value (ptr.take 4)) &&& 1
        cpu := c.cpu.setIrq kCauseSoftware (UInt32.ofNat (value (ptr.take 4)) &&& 1 ≠ 0) }) ∨
      (WritesMtimecmp t ∧ ¬ WritesMsip t ∧ ∃ v, r.1 = { c with mtimecmp := v, cmpEvent := .delta }) := by
  unfold bTransport at h
  cases hp : t.dataPtr with
  | none =>
    rw [hp] at h
    obtain rfl := Option.some.inj h
    exact .inl ⟨fun hw => absurd hw.2.1 (by simp [hp]), fun hw => absurd hw.2.1 (by simp [hp]), rfl⟩
  | some ptr =>
    rw [hp] at h
    dsimp only at h
    split at h
    · rename_i hmsip
      have hno : ¬ WritesMtimecmp t := fun hw => hw.2.2.1 hmsip
      split at h <;> rename_i hr <;> obtain rfl := Option.some.inj h
      · exact .inl ⟨hno, fun hw => hw.1 (by simpa using hr), rfl⟩
      · exact .inr (.inl ⟨hno, ⟨by simpa using hr, by simp [hp], hmsip⟩, ptr, rfl, rfl⟩)
    rename_i hmsip
    have hnm : ¬ WritesMsip t := fun hw => hmsip hw.2.2
    split at h
    · rename_i hcmp
      split at h
      · rename_i hr
        obtain ⟨bs, -, rfl⟩ := Option.map_eq_some_iff.1 h
        exact .inl ⟨fun hw => hw.1 (by simpa using hr), hnm, rfl⟩
      · rename_i hr
        obtain ⟨v, -, rfl⟩ := Option.map_eq_some_iff.1 h
        refine .inr (.inr ⟨⟨by simpa using hr, by simp [hp], hmsip, hcmp⟩, hnm, v, ?_⟩)
        rw [Notification.notify_zero]
    · rename_i hcmp
      have hno : ¬ WritesMtimecmp t := fun hw => hcmp hw.2.2.2
      split at h
      · split at h
        · obtain ⟨bs, -, rfl⟩ := Option.map_eq_some_iff.1 h
          exact .inl ⟨hno, hnm, rfl⟩
        · obtain rfl := Option.some.inj h
          exact .inl ⟨hno, hnm, rfl⟩
      · obtain rfl := Option.some.inj h
        exact .inl ⟨hno, hnm, rfl⟩

/-- A transaction leaves the timer alone, or writes `mtimecmp` and notifies `cmp_event_` for the next delta
cycle. -/
theorem bTransport_cases {c : Clint} {t : Payload} {d : Nat} {r : Clint × Payload × Nat}
    (h : c.bTransport t d = some r) : (¬ WritesMtimecmp t ∧ SameTimer c r.1) ∨
      (WritesMtimecmp t ∧ ∃ v, r.1 = { c with mtimecmp := v, cmpEvent := .delta }) := by
  rcases bTransport_inv h with ⟨hno, -, hr⟩ | ⟨hno, -, ptr, -, hr⟩ | ⟨hw, -, hr⟩
  · rw [hr]
    exact .inl ⟨hno, .refl c⟩
  · rw [hr]
    exact .inl ⟨hno, rfl, rfl, rfl, rfl, IrqPort.level_setIrq_of_ne _ _ (by decide)⟩
  · exact .inr ⟨hw, hr⟩

/-! ### The compare time -/

def Fired (c : Clint) : Prop := c.mtimecmp ≠ 0 ∧ c.mtimecmp.toNat ≤ c.now.toNat / 10 ^ 6

theorem toNat_nowMtime (c : Clint) : c.nowMtime.toNat = c.now.toNat / 10 ^ 6 := by
  rw [nowMtime, UInt64.toNat_div]; rfl

theorem fired_iff (c : Clint) : c.mtimecmp ≠ 0 ∧ c.nowMtime ≥ c.mtimecmp ↔ c.Fired := by
  rw [Fired, ge_iff_le, UInt64.le_iff_toNat_le, toNat_nowMtime]

theorem toNat_goal (c : Clint) : (c.mtimecmp * kScaler).toNat = c.mtimecmp.toNat * 10 ^ 6 % 2 ^ 64 := by
  rw [UInt64.toNat_mul]; rfl

theorem now_add_rescheduleDelay {c : Clint} (h : 0 < c.rescheduleDelay) :
    c.now.toNat + c.rescheduleDelay = c.mtimecmp.toNat * 10 ^ 6 % 2 ^ 64 := by
  rw [rescheduleDelay] at h ⊢
  split at h
  · rename_i hgt
    have hlt := UInt64.lt_iff_toNat_lt.1 hgt
    rw [if_pos hgt, UInt64.toNat_sub_of_le _ _ (UInt64.le_iff_toNat_le.2 hlt.le), ← toNat_goal]
    omega
  · exact absurd h (Nat.lt_irrefl 0)

theorem rescheduleDelay_pos_iff (c : Clint) :
    0 < c.rescheduleDelay ↔ c.now.toNat < c.mtimecmp.toNat * 10 ^ 6 % 2 ^ 64 := by
  rw [rescheduleDelay, ← toNat_goal]
  split
  · rename_i hgt
    have hlt := UInt64.lt_iff_toNat_lt.1 hgt
    rw [UInt64.toNat_sub_of_le _ _ (UInt64.le_iff_toNat_le.2 hlt.le)]
    omega
  · rename_i hgt
    have := mt UInt64.lt_iff_toNat_lt.2 hgt
    omega

instance (c : Clint) : Decidable c.Fired := by unfold Fired; infer_instance

@[simp] theorem reschedule_cpu (c : Clint) : c.reschedule.cpu = c.cpu := by unfold reschedule; split <;> rfl
@[simp] theorem reschedule_now (c : Clint) : c.reschedule.now = c.now := by unfold reschedule; split <;> rfl
@[simp] theorem reschedule_mtimecmp (c : Clint) : c.reschedule.mtimecmp = c.mtimecmp := by
  unfold reschedule; split <;> rfl
@[simp] theorem reschedule_msip (c : Clint) : c.reschedule.msip = c.msip := by unfold reschedule; split <;> rfl
@[simp] theorem reschedule_timerProc (c : Clint) : c.reschedule.timerProc = c.timerProc := by
  unfold reschedule; split <;> rfl

theorem timerTurn_eq (c : Clint) : c.timerTurn =
    if c.Fired then { c with timerProc := .waiting, cpu := c.cpu.setIrq kCauseTimer true }
    else { c with timerProc := .waiting, cpu := c.cpu.setIrq kCauseTimer false }.reschedule := by
  by_cases hf : c.mtimecmp ≠ 0 ∧ c.nowMtime ≥ c.mtimecmp
  · rw [if_pos ((fired_iff c).1 hf)]
    exact if_pos hf
  · rw [if_neg fun h => hf ((fired_iff c).2 h)]
    exact if_neg hf

@[simp] theorem timerTurn_now (c : Clint) : c.timerTurn.now = c.now := by
  rw [timerTurn_eq]; split <;> simp
@[simp] theorem timerTurn_mtimecmp (c : Clint) : c.timerTurn.mtimecmp = c.mtimecmp := by
  rw [timerTurn_eq]; split <;> simp
@[simp] theorem timerTurn_msip (c : Clint) : c.timerTurn.msip = c.msip := by
  rw [timerTurn_eq]; split <;> simp
@[simp] theorem timerTurn_timerProc (c : Clint) : c.timerTurn.timerProc = .waiting := by
  rw [timerTurn_eq]; split <;> simp

theorem timerTurn_cpu (c : Clint) : c.timerTurn.cpu = c.cpu.setIrq kCauseTimer c.Fired := by
  rw [timerTurn_eq]
  split
  · rename_i hf
    rw [decide_eq_true hf]
  · rename_i hf
    rw [reschedule_cpu, decide_eq_false hf]

/-- `timer_proc` drives MTIP to say whether the compare time is reached. -/
theorem level_timerTurn (c : Clint) : c.timerTurn.cpu.level kCauseTimer = true ↔ c.Fired := by
  rw [timerTurn_cpu, IrqPort.level_setIrq_self, decide_eq_true_eq]

theorem cmpEvent_timerTurn (c : Clint) : c.timerTurn.cmpEvent =
    if c.Fired ∨ c.mtimecmp = 0 then c.cmpEvent else c.cmpEvent.notify c.now.toNat c.rescheduleDelay := by
  by_cases hf : c.Fired
  · rw [timerTurn_eq, if_pos hf, if_pos (.inl hf)]
  rw [timerTurn_eq, if_neg hf, reschedule]
  by_cases hz : c.mtimecmp = 0
  · rw [if_pos hz, if_pos (.inr hz)]
  · rw [if_neg hz, if_neg (not_or.2 ⟨hf, hz⟩)]
    rfl

end Clint
end CdcVp
