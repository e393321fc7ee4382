import CdcVp.FlatStore
import CdcVp.LittleEndian
import CdcVp.Runs
import CdcVp.Tlm

/-!
# `PWM`

The register file and the loop of `pwm_thread`, with the part of the kernel they see: where the thread is, the
value `pwm_out` takes at the next update, and the clock in picoseconds. `machine` is the PWM in the system: a
transaction, or one of the kernel's moves.
-/

namespace CdcVp
open FlatStore LittleEndian Runs

structure PwmRegs where
  cfg : UInt32
  pwmEn : UInt32
  invert : UInt32
  phaseDelay : UInt32
  dutyCycle : UInt32
  period : UInt32
deriving DecidableEq, Repr

/-- Where `pwm_thread` is: not started, at `wait(10, SC_NS)`, or past it and runnable. -/
inductive PwmThread
  | start
  | waiting (wake : Nat)
  | woken
deriving DecidableEq, Repr

namespace PwmThread

/-- The kernel may resume the thread. -/
def runnable : PwmThread → Bool
  | .waiting _ => false
  | _ => true

end PwmThread

/-- `PWM`. `pwmOutNext` is what `pwm_out` takes at the next update. -/
structure Pwm where
  reg : PwmRegs
  counter : UInt16
  pwmOut : Bool
  pwmOutNext : Bool
  pwmThread : PwmThread
  now : Nat
deriving DecidableEq, Repr

namespace PwmRegs

def regCfg : UInt64 := 0x08
def regPwmEn : UInt64 := 0x0C
def regInvert : UInt64 := 0x10
def regPwmParam0 : UInt64 := 0x14
def regDuty0 : UInt64 := 0x2C
def regPeriod : UInt64 := 0x30

/-- The value a read returns; `none` for an address that is not mapped. -/
def read (r : PwmRegs) (addr : UInt64) : Option UInt32 :=
  if addr = regCfg then some r.cfg
  else if addr = regPwmEn then some r.pwmEn
  else if addr = regInvert then some r.invert
  else if addr = regPwmParam0 then some r.phaseDelay
  else if addr = regDuty0 then some r.dutyCycle
  else if addr = regPeriod then some r.period
  else none

/-- A write; `none` for an address that is not mapped. -/
def write (r : PwmRegs) (addr : UInt64) (data : UInt32) : Option PwmRegs :=
  if addr = regCfg then some { r with cfg := data }
  else if addr = regPwmEn then some { r with pwmEn := data }
  else if addr = regInvert then some { r with invert := data }
  else if addr = regPwmParam0 then some { r with phaseDelay := data }
  else if addr = regDuty0 then some { r with dutyCycle := data }
  else if addr = regPeriod then some { r with period := data }
  else none

def counterEnable (r : PwmRegs) : Bool := r.cfg >>> 31 &&& 1 ≠ 0

def pwmEnabled (r : PwmRegs) : Bool := r.pwmEn &&& 0x1 ≠ 0

def inverted (r : PwmRegs) : Bool := r.invert &&& 0x1 ≠ 0

/-- The counter after a tick: 32-bit arithmetic, kept in 16 bits. -/
def nextCounter (r : PwmRegs) (counter : UInt16) : UInt16 := ((counter.toUInt32 + 1) % r.period).toUInt16

/-- The place in the period that is compared with the duty cycle. -/
def shifted (r : PwmRegs) (counter : UInt16) : UInt16 :=
  ((counter.toUInt32 + r.period - r.phaseDelay) % r.period).toUInt16

/-- The output before INVERT. -/
def pwm (r : PwmRegs) (counter : UInt16) : Bool := r.pwmEnabled && (r.shifted counter).toUInt32 < r.dutyCycle

/-- What a tick writes to `pwm_out`. -/
def level (r : PwmRegs) (counter : UInt16) : Bool := if r.inverted then !r.pwm counter else r.pwm counter

end PwmRegs

namespace Pwm

/-- The constructor. -/
def new : Pwm where
  reg := { cfg := 0, pwmEn := 0, invert := 0, phaseDelay := 0, dutyCycle := 0, period := 256 }
  counter := 0
  pwmOut := false
  pwmOutNext := false
  pwmThread := .start
  now := 0

/-- What can be observed of the PWM: the value a register read returns, and the counter and the output of a
tick with the counter enabled, which the thread prints. -/
inductive Obs
  | read (addr : UInt64) (data : UInt32)
  | ticked (counter : UInt16) (pwm : Bool)
deriving DecidableEq, Repr

/-- `PWM::b_transport`, which looks at no attribute but command, address and data; `none` where it goes past
the buffer, which is undefined. -/
def bTransport (s : Pwm) (trans : Payload) (delay : Nat) : Option (Pwm × Payload × Nat × List Obs) :=
  let addr := trans.address
  let ptr := trans.dataPtr.getD []
  if trans.command = .write then
    match s.reg.write addr (UInt32.ofNat (value (ptr.take 4))) with
    | none => some (s, { trans with responseStatus := .addressError }, delay, [])
    | some reg =>
      if ptr.length < 4 then none
      else some ({ s with reg := reg }, { trans with responseStatus := .ok }, delay + 10000, [])
  else
    match s.reg.read addr with
    | none => some (s, { trans with responseStatus := .addressError }, delay, [])
    | some data =>
      if ptr.length < 4 then none
      else some (s, { trans with
        dataPtr := some (blit ptr 0 (bytes 4 data.toNat)), responseStatus := .ok }, delay + 10000,
        [.read addr data])

/-- The body of the loop of `pwm_thread`; `none` where it divides by zero, which is undefined. -/
def tick (s : Pwm) : Option (Pwm × List Obs) :=
  if s.reg.counterEnable = false then some (s, [])
  else if s.reg.period = 0 then none
  else
    let counter := s.reg.nextCounter s.counter
    let pwm := s.reg.level counter
    some ({ s with counter := counter, pwmOutNext := pwm }, [.ticked counter pwm])

/-! ### The PWM in the system -/

/-- Nothing is left to run in this delta cycle or the next. -/
def Settled (s : Pwm) : Prop := s.pwmThread.runnable = false ∧ s.pwmOut = s.pwmOutNext

instance (s : Pwm) : Decidable s.Settled := by unfold Settled; infer_instance

/-- The update phase. -/
def deltaCycle (s : Pwm) : Pwm := { s with pwmOut := s.pwmOutNext }

/-- A transaction, or a move of the kernel: resume `pwm_thread`, end the delta cycle, advance time. -/
inductive Op
  | transport (trans : Payload) (delay : Nat)
  | pwmThread
  | delta
  | advance (time : Nat)
deriving DecidableEq

/-- The kernel ends the delta cycle only when nothing is runnable, and advances time only when nothing waits
for a delta cycle, no further than the thread waits. -/
def machine : Machine Pwm Op Obs := fun s op =>
  match op with
  | .transport t delay => (s.bTransport t delay).map fun r => (r.1, r.2.2.2)
  | .pwmThread =>
    match s.pwmThread with
    | .start => some ({ s with pwmThread := .waiting (s.now + 10000) }, [])
    | .woken => s.tick.map fun r => ({ r.1 with pwmThread := .waiting (s.now + 10000) }, r.2)
    | .waiting _ => none
  | .delta => if s.pwmThread.runnable then none else some (s.deltaCycle, [])
  | .advance time =>
    match s.pwmThread with
    | .waiting wake =>
      if s.Settled ∧ s.now < time ∧ time ≤ wake then
        some ({ s with now := time, pwmThread := if time = wake then .woken else .waiting wake }, [])
      else none
    | _ => none

/-! ### The moves -/

variable {s s' : Pwm} {op : Op} {o : List Obs}

/-- What a transaction does. -/
inductive BusMove (s : Pwm) : Pwm → List Obs → Prop
  | quiet : BusMove s s []
  | read (addr : UInt64) (data : UInt32) (h : s.reg.read addr = some data) : BusMove s s [.read addr data]
  | write (addr : UInt64) (data : UInt32) (reg : PwmRegs) (h : s.reg.write addr data = some reg) :
      BusMove s { s with reg := reg } []

theorem bTransport_move {t t' : Payload} {d d' : Nat} (h : s.bTransport t d = some (s', t', d', o)) :
    BusMove s s' o := by
  unfold bTransport at h
  dsimp only at h
  split at h
  · split at h
    · cases h
      exact .quiet
    · rename_i reg hreg
      split at h <;> cases h
      exact .write _ _ reg hreg
  · split at h
    · cases h
      exact .quiet
    · rename_i data hdata
      split at h <;> cases h
      exact .read _ data hdata

/-- What a step of the machine does. -/
inductive Move (s : Pwm) : Op → Pwm → List Obs → Prop
  | bus {s' : Pwm} {o : List Obs} (t : Payload) (d : Nat) (h : BusMove s s' o) : Move s (.transport t d) s' o
  | start (start : s.pwmThread = .start) :
      Move s .pwmThread { s with pwmThread := .waiting (s.now + 10000) } []
  | off (woken : s.pwmThread = .woken) (off : s.reg.counterEnable = false) :
      Move s .pwmThread { s with pwmThread := .waiting (s.now + 10000) } []
  | tick (woken : s.pwmThread = .woken) (on : s.reg.counterEnable = true) (hp : s.reg.period ≠ 0) :
      Move s .pwmThread { s with
        counter := s.reg.nextCounter s.counter
        pwmOutNext := s.reg.level (s.reg.nextCounter s.counter)
        pwmThread := .waiting (s.now + 10000) }
        [.ticked (s.reg.nextCounter s.counter) (s.reg.level (s.reg.nextCounter s.counter))]
  | delta (h : s.pwmThread.runnable = false) : Move s .delta s.deltaCycle []
  | advance (time wake : Nat) (waiting : s.pwmThread = .waiting wake) (settled : s.Settled)
      (later : s.now < time) (le : time ≤ wake) : Move s (.advance time)
        { s with now := time, pwmThread := if time = wake then .woken else .waiting wake } []

theorem machine_move (h : machine s op = some (s', o)) : Move s op s' o := by
  cases op with
  | transport t d =>
    obtain ⟨⟨a, t', d', o'⟩, hb, heq⟩ := Option.map_eq_some_iff.1 h
    cases heq
    exact .bus t d (bTransport_move hb)
  | pwmThread =>
    simp only [machine] at h
    split at h
    · rename_i hs
      cases h
      exact .start hs
    · rename_i hw
      obtain ⟨⟨a, o'⟩, ht, heq⟩ := Option.map_eq_some_iff.1 h
      cases heq
      unfold tick at ht
      split at ht
      · rename_i hoff
        cases ht
        exact .off hw hoff
      rename_i hon
      split at ht
      · cases ht
      · rename_i hp
        cases ht
        exact .tick hw (Bool.not_eq_false _ ▸ hon) hp
    · cases h
  | delta =>
    simp only [machine] at h
    split at h
    · cases h
    · rename_i hr
      cases h
      exact .delta (Bool.eq_false_iff.2 hr)
  | advance time =>
    simp only [machine] at h
    split at h
    · rename_i wake hw
      split at h
      · rename_i hs
        cases h
        exact .advance time wake hw hs.1 hs.2.1 hs.2.2
      · cases h
    · cases h

/-- A tick with the counter enabled goes through where the period is not zero. -/
theorem machine_tick (woken : s.pwmThread = .woken) (on : s.reg.counterEnable = true) (hp : s.reg.period ≠ 0) :
    machine s .pwmThread = some ({ s with
      counter := s.reg.nextCounter s.counter
      pwmOutNext := s.reg.level (s.reg.nextCounter s.counter)
      pwmThread := .waiting (s.now + 10000) },
      [.ticked (s.reg.nextCounter s.counter) (s.reg.level (s.reg.nextCounter s.counter))]) := by
  simp only [machine, woken, tick, on, Bool.true_eq_false, if_false, if_neg hp, Option.map_some]

end Pwm
end CdcVp
