import CdcVp.FlatStore
import CdcVp.LittleEndian
import CdcVp.Runs
import CdcVp.Tlm

/-!
# `Timer`

The register file, `reset` and the loop of `timer_thread`, with the part of the kernel they see: where the
thread waits and what woke it, the three signals with the values they take at the next update, and the clock
in picoseconds. `update_reg` and `intr_clear` are notified immediately: they wake the thread if it waits for
them at that moment, and are lost otherwise. `machine` is the timer in the system: a transaction, a write of
one of the inputs, or one of the kernel's moves.
-/

namespace CdcVp
open FlatStore LittleEndian Runs

/-- What wakes `timer_thread` from its wait for the next count. -/
inductive Cause
  | timeout
  | extin
  | update
  | clear
  | negedge
deriving DecidableEq, Repr

/-- The wait for the next count: for an edge of `extin`, or for `tick_period` since it began. -/
inductive CountWait
  | clock
  | tick (since : Nat)
deriving DecidableEq, Repr

/-- Where `timer_thread` is. It waits in `reset` at `inReset`, for a write of a register at `disabled` and for
the next count at `counting`. -/
inductive TimerThread
  | start
  | inReset
  | leftReset
  | disabled
  | leftDisabled
  | counting (wait : CountWait)
  | counted (cause : Cause)
deriving DecidableEq, Repr

namespace TimerThread

/-- The kernel may resume the thread. -/
def runnable : TimerThread → Bool
  | .start | .leftReset | .leftDisabled | .counted _ => true
  | _ => false

/-- `update_reg.notify()`. -/
def notifyUpdate : TimerThread → TimerThread
  | .disabled => .leftDisabled
  | .counting _ => .counted .update
  | t => t

/-- `intr_clear.notify()`. -/
def notifyClear : TimerThread → TimerThread
  | .counting _ => .counted .clear
  | t => t

/-- What the end of a delta cycle makes of a wait, given the edges of `prstn` and `extin` in it. -/
def delta (posedge negedge extinPosedge : Bool) (period now : Nat) : TimerThread → TimerThread
  | .inReset => if posedge then .leftReset else .inReset
  | .disabled => if negedge then .leftDisabled else .disabled
  | .counting .clock =>
    if extinPosedge then .counted .extin else if negedge then .counted .negedge else .counting .clock
  | .counting (.tick since) =>
    if since + period ≤ now then .counted .timeout
    else if negedge then .counted .negedge
    else .counting (.tick since)
  | t => t

end TimerThread

/-- `Timer`. `prstnNext`, `extinNext` and `timerintNext` are what the signals take at the next update;
`evaluating` says that something has run since the last one. -/
structure Timer where
  ctrlReg : UInt32
  valueReg : UInt32
  reloadReg : UInt32
  intrStatus : Bool
  intrClearInc : Bool
  tickPeriod : Nat
  prstn : Bool
  prstnNext : Bool
  extin : Bool
  extinNext : Bool
  timerint : Bool
  timerintNext : Bool
  timerThread : TimerThread
  evaluating : Bool
  now : Nat
deriving DecidableEq, Repr

namespace Timer

def addrCtrl : UInt64 := 0x00
def addrValue : UInt64 := 0x04
def addrReload : UInt64 := 0x08
def addrIntStatus : UInt64 := 0x0C

def opsEnable : UInt32 := 0x1
def opsExEn : UInt32 := 0x2
def opsExClk : UInt32 := 0x4
def opsIntrEn : UInt32 := 0x8

/-- The constructor, with the levels the two inputs have when the simulation starts. -/
def new (tickPeriod : Nat) (prstn extin : Bool) : Timer where
  ctrlReg := 0
  valueReg := 0
  reloadReg := 0
  intrStatus := false
  intrClearInc := false
  tickPeriod := tickPeriod
  prstn := prstn
  prstnNext := prstn
  extin := extin
  extinNext := extin
  timerint := false
  timerintNext := false
  timerThread := .start
  evaluating := false
  now := 0

/-- What can be observed of the timer: the value a register read returns, a count with its time and whether it
crossed zero, and the level of `timerint` after a delta cycle. -/
inductive Obs
  | read (addr : UInt64) (data : UInt32)
  | counted (time : Nat) (crossed : Bool)
  | timerint (level : Bool)
deriving DecidableEq, Repr

def enabled (s : Timer) : Bool := s.ctrlReg &&& opsEnable ≠ 0

def exClk (s : Timer) : Bool := s.ctrlReg &&& opsExClk ≠ 0

/-- EX_EN is set and `extin` is low. -/
def gated (s : Timer) : Bool := s.ctrlReg &&& opsExEn ≠ 0 && !s.extin

/-! ### The registers -/

/-- The value a read returns; `none` for an address that is not mapped. -/
def readReg (s : Timer) (adr : UInt64) : Option UInt32 :=
  if adr = addrCtrl then some s.ctrlReg
  else if adr = addrValue then some s.valueReg
  else if adr = addrReload then some s.reloadReg
  else if adr = addrIntStatus then some (if s.intrStatus then 1 else 0)
  else none

/-- A write; `none` for an address that is not mapped. -/
def writeReg (s : Timer) (adr : UInt64) (data : UInt32) : Option Timer :=
  if adr = addrCtrl then some { s with ctrlReg := data &&& 0xF, timerThread := s.timerThread.notifyUpdate }
  else if adr = addrValue then some { s with valueReg := data, timerThread := s.timerThread.notifyUpdate }
  else if adr = addrReload then
    some { s with reloadReg := data, valueReg := data, timerThread := s.timerThread.notifyUpdate }
  else if adr = addrIntStatus then
    if data &&& 0x1 ≠ 0 then
      some { s with intrStatus := false, intrClearInc := true, timerThread := s.timerThread.notifyClear }
    else some s
  else none

/-- `Timer::b_transport`, which leaves the delay alone and takes every command but a read for a write; `none`
where it goes past the buffer, which is undefined. -/
def bTransport (s : Timer) (trans : ApbPayload) : Option (Timer × ApbPayload × List Obs) :=
  if trans.dataLength ≠ 4 then some (s, { trans with responseStatus := .genericError }, [])
  else if trans.byteEnablePtr ≠ none ∨ trans.streamingWidth < trans.dataLength then
    some (s, { trans with responseStatus := .burstError }, [])
  else
    let ptr := trans.dataPtr.getD []
    if trans.command = .read then
      match s.readReg trans.address with
      | none => some (s, { trans with responseStatus := .addressError }, [])
      | some v =>
        if ptr.length < 4 then none
        else some (s, { trans with dataPtr := some (blit ptr 0 (bytes 4 v.toNat)), responseStatus := .ok },
          [.read trans.address v])
    else if ptr.length < 4 then none
    else
      match s.writeReg trans.address (UInt32.ofNat (value (ptr.take 4))) with
      | none => some (s, { trans with responseStatus := .addressError }, [])
      | some s => some (s, { trans with responseStatus := .ok }, [])

/-! ### The thread -/

/-- `reset`, to its wait. -/
def reset (s : Timer) : Timer :=
  { s with
    ctrlReg := 0
    valueReg := 0
    reloadReg := 0
    intrStatus := false
    timerintNext := false
    timerThread := .inReset }

/-- From the head of the loop of `timer_thread` to the next wait. -/
def head (s : Timer) : Timer :=
  if s.prstn = false then s.reset
  else if s.enabled = false then { s with timerThread := .disabled }
  else { s with timerThread := .counting (if s.exClk then .clock else .tick s.now) }

/-- From the wait for the next count to the head of the loop. -/
def count (s : Timer) : Timer × List Obs :=
  if s.intrClearInc then ({ s with intrClearInc := false, timerintNext := false }, [])
  else if s.gated then (s, [])
  else if s.valueReg = 0 then
    ({ s with
      valueReg := s.reloadReg
      intrStatus := true
      timerintNext := if s.ctrlReg &&& opsIntrEn ≠ 0 then true else s.timerintNext }, [.counted s.now true])
  else ({ s with valueReg := s.valueReg - 1 }, [.counted s.now false])

/-! ### The timer in the system -/

/-- Nothing is left to run in this delta cycle or the next. -/
def Settled (s : Timer) : Prop :=
  s.timerThread.delta false false false s.tickPeriod s.now = s.timerThread ∧ s.timerThread.runnable = false ∧
    s.evaluating = false ∧ s.prstn = s.prstnNext ∧ s.extin = s.extinNext ∧ s.timerint = s.timerintNext

instance (s : Timer) : Decidable s.Settled := by unfold Settled; infer_instance

/-- The update phase and the delta notification phase. -/
def deltaCycle (s : Timer) : Timer :=
  { s with
    prstn := s.prstnNext
    extin := s.extinNext
    timerint := s.timerintNext
    timerThread := s.timerThread.delta (!s.prstn && s.prstnNext) (s.prstn && !s.prstnNext)
      (!s.extin && s.extinNext) s.tickPeriod s.now
    evaluating := false }

/-- A transaction, a write of `prstn` or `extin`, or a move of the kernel: `timer_thread` has its turn, the
delta cycle ends, time advances. -/
inductive Op
  | transport (trans : ApbPayload)
  | prstn (level : Bool)
  | extin (level : Bool)
  | timerThread
  | delta
  | advance (time : Nat)
deriving DecidableEq

/-- The kernel gives the thread its turn at any moment of a delta cycle, to no effect while it waits; it ends
the delta cycle only when nothing is runnable, and advances time only when nothing waits for a delta cycle, no
further than the thread waits. -/
def machine : Machine Timer Op Obs := fun s op =>
  match op with
  | .transport t => (s.bTransport t).map fun r => ({ r.1 with evaluating := true }, r.2.2)
  | .prstn level => some ({ s with prstnNext := level, evaluating := true }, [])
  | .extin level => some ({ s with extinNext := level, evaluating := true }, [])
  | .timerThread =>
    match s.timerThread with
    | .start | .leftReset | .leftDisabled => some ({ s.head with evaluating := true }, [])
    | .counted _ => some ({ s.count.1.head with evaluating := true }, s.count.2)
    | _ => some (s, [])
  | .delta =>
    if s.timerThread.runnable then none else some (s.deltaCycle, [.timerint s.timerintNext])
  | .advance time =>
    if s.Settled ∧ s.now < time then
      match s.timerThread with
      | .counting (.tick since) =>
        if time < since + s.tickPeriod then some ({ s with now := time }, [])
        else if time = since + s.tickPeriod then
          some ({ s with now := time, timerThread := .counted .timeout }, [])
        else none
      | _ => some ({ s with now := time }, [])
    else none

end Timer
end CdcVp
