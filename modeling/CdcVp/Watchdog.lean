import CdcVp.FlatStore
import CdcVp.LittleEndian
import CdcVp.Runs
import CdcVp.Tlm

/-!
# `watchdog`

The register file with its lock, the loop of `counter_thread` and `drive_outputs`, with the part of the kernel
they see: the delta notification pending on `m_output_changed`, the two processes, the values the outputs take
at the next update, and the clock in picoseconds. `machine` is the watchdog in the system: a transaction, or
one of the kernel's moves.
-/

namespace CdcVp
open FlatStore LittleEndian Runs

/-- Where `counter_thread` is: not started, at `wait(m_tick_period)`, or past it and runnable. -/
inductive CounterThread
  | start
  | waiting (wake : Nat)
  | woken
deriving DecidableEq, Repr

namespace CounterThread

/-- The kernel may resume the thread. -/
def runnable : CounterThread → Bool
  | .waiting _ => false
  | _ => true

/-- What the end of a delta cycle makes of a wait. -/
def delta (now : Nat) : CounterThread → CounterThread
  | .waiting wake => if wake ≤ now then .woken else .waiting wake
  | t => t

end CounterThread

/-- `watchdog`. `irqNext` and `resetONext` are what the outputs take at the next update. -/
structure Watchdog where
  load : UInt32
  counter : UInt32
  control : UInt32
  ris : UInt32
  mis : UInt32
  locked : Bool
  resetAsserted : Bool
  irqLevel : Bool
  resetLevel : Bool
  tickPeriod : Nat
  irq : Bool
  irqNext : Bool
  resetO : Bool
  resetONext : Bool
  outputChanged : Bool
  driveOutputsReady : Bool
  counterThread : CounterThread
  now : Nat
deriving DecidableEq, Repr

namespace Watchdog

def wdogLoad : UInt32 := 0x000
def wdogValue : UInt32 := 0x004
def wdogControl : UInt32 := 0x008
def wdogIntClr : UInt32 := 0x00C
def wdogRis : UInt32 := 0x010
def wdogMis : UInt32 := 0x014
def wdogLock : UInt32 := 0xC00
def wdogPeriphId0 : UInt32 := 0xFE0
def wdogPeriphId1 : UInt32 := 0xFE4
def wdogPeriphId2 : UInt32 := 0xFE8
def wdogPeriphId3 : UInt32 := 0xFEC
def wdogPCellId0 : UInt32 := 0xFF0
def wdogPCellId1 : UInt32 := 0xFF4
def wdogPCellId2 : UInt32 := 0xFF8
def wdogPCellId3 : UInt32 := 0xFFC

def ctrlInten : UInt32 := 0x1
def ctrlResen : UInt32 := 0x2
def controlWritableMask : UInt32 := ctrlInten ||| ctrlResen
def risAsserted : UInt32 := 1
def lockUnlockValue : UInt32 := 0x1ACCE551

/-- The constructor; both processes are runnable when the simulation starts. -/
def new (tickPeriod : Nat) : Watchdog where
  load := 0xFFFFFFFF
  counter := 0xFFFFFFFF
  control := 0
  ris := 0
  mis := 0
  locked := false
  resetAsserted := false
  irqLevel := false
  resetLevel := false
  tickPeriod := tickPeriod
  irq := false
  irqNext := false
  resetO := false
  resetONext := false
  outputChanged := false
  driveOutputsReady := true
  counterThread := .start
  now := 0

/-- What can be observed of the watchdog: the value a register read returns, an accepted write of WDOG_INTCLR,
and the outputs at the end of a time step. -/
inductive Obs
  | read (addr data : UInt32)
  | intClr
  | outputs (irq resetO : Bool)
deriving DecidableEq, Repr

def interruptEnabled (w : Watchdog) : Bool := w.control &&& ctrlInten ≠ 0

def resetEnabled (w : Watchdog) : Bool := w.control &&& ctrlResen ≠ 0

def updateOutputs (w : Watchdog) : Watchdog :=
  let mis := if w.ris &&& risAsserted ≠ 0 ∧ w.interruptEnabled then risAsserted else 0
  { w with mis := mis, irqLevel := mis &&& risAsserted ≠ 0, resetLevel := w.resetAsserted, outputChanged := true }

def reloadCounter (w : Watchdog) : Watchdog := { w with counter := w.load }

def clearInterrupt (w : Watchdog) : Watchdog := { w with ris := 0 }.reloadCounter.updateOutputs

def handleTimeout (w : Watchdog) : Watchdog :=
  if w.ris &&& risAsserted ≠ 0 then
    if w.resetEnabled then { w with resetAsserted := true }.updateOutputs
    else w.reloadCounter
  else { w with ris := risAsserted }.updateOutputs.reloadCounter

/-- The body of the loop of `counter_thread`. -/
def tick (w : Watchdog) : Watchdog :=
  if w.interruptEnabled = false ∨ w.resetAsserted then w
  else if w.counter = 0 then w.handleTimeout
  else { w with counter := w.counter - 1 }

def driveOutputs (w : Watchdog) : Watchdog :=
  { w with irqNext := w.irqLevel, resetONext := w.resetLevel }

def readReg (w : Watchdog) (addr : UInt32) : Watchdog × UInt32 :=
  let w := w.updateOutputs
  (w,
    if addr = wdogLoad then w.load
    else if addr = wdogValue then w.counter
    else if addr = wdogControl then w.control
    else if addr = wdogIntClr then 0
    else if addr = wdogRis then w.ris &&& risAsserted
    else if addr = wdogMis then w.mis &&& risAsserted
    else if addr = wdogLock then if w.locked then 1 else 0
    else if addr = wdogPeriphId0 then 0x05
    else if addr = wdogPeriphId1 then 0x18
    else if addr = wdogPeriphId2 then 0x14
    else if addr = wdogPeriphId3 then 0x00
    else if addr = wdogPCellId0 then 0x0D
    else if addr = wdogPCellId1 then 0xF0
    else if addr = wdogPCellId2 then 0x05
    else if addr = wdogPCellId3 then 0xB1
    else 0)

/-- A write of WDOG_CONTROL while unlocked. -/
def writeControl (w : Watchdog) (data : UInt32) : Watchdog :=
  let wasEnabled := w.interruptEnabled
  let w := { w with control := data &&& controlWritableMask }
  let w := if wasEnabled = false ∧ w.interruptEnabled ∧ w.resetAsserted = false then w.reloadCounter else w
  w.updateOutputs

def writeReg (w : Watchdog) (addr data : UInt32) : Watchdog × List Obs :=
  if addr = wdogLock then ({ w with locked := data ≠ lockUnlockValue }, [])
  else if w.locked then (w, [])
  else if addr = wdogLoad then ({ w with load := data }.reloadCounter, [])
  else if addr = wdogControl then (w.writeControl data, [])
  else if addr = wdogIntClr then (w.clearInterrupt, [.intClr])
  else (w, [])

/-- `watchdog::b_transport`, which leaves the delay alone; `none` where it goes past the buffer. -/
def bTransport (w : Watchdog) (trans : ApbPayload) : Option (Watchdog × ApbPayload × List Obs) :=
  if trans.byteEnablePtr ≠ none then some (w, { trans with responseStatus := .byteEnableError }, [])
  else if trans.dataLength < 4 then some (w, { trans with responseStatus := .burstError }, [])
  else
    let addr := (trans.address &&& 0xFFF).toUInt32
    match trans.dataPtr with
    | none => some (w, { trans with responseStatus := .genericError }, [])
    | some data =>
      match trans.command with
      | .read =>
        if data.length < 4 then none
        else
          let (w, v) := w.readReg addr
          some (w, { trans with dataPtr := some (blit data 0 (bytes 4 v.toNat)), responseStatus := .ok },
            [.read addr v])
      | .write =>
        if data.length < 4 then none
        else
          let (w, o) := w.writeReg addr (UInt32.ofNat (value (data.take 4)))
          some (w, { trans with responseStatus := .ok }, o)
      | .ignore => some (w, { trans with responseStatus := .commandError }, [])

/-! ### The watchdog in the system -/

/-- Nothing of the watchdog is left to run. -/
def Idle (w : Watchdog) : Prop := w.counterThread.runnable = false ∧ w.driveOutputsReady = false

/-- Nothing waits for the next delta cycle either. -/
def Settled (w : Watchdog) : Prop :=
  w.Idle ∧ w.counterThread.delta w.now = w.counterThread ∧ w.outputChanged = false ∧ w.irq = w.irqNext ∧
    w.resetO = w.resetONext

instance (w : Watchdog) : Decidable w.Idle := by unfold Idle; infer_instance
instance (w : Watchdog) : Decidable w.Settled := by unfold Settled; infer_instance

/-- The update phase and the delta notification phase. -/
def deltaCycle (w : Watchdog) : Watchdog :=
  { w with
    irq := w.irqNext
    resetO := w.resetONext
    driveOutputsReady := w.outputChanged
    outputChanged := false
    counterThread := w.counterThread.delta w.now }

/-- A transaction, or a move of the kernel: resume `counter_thread`, run `drive_outputs`, end the delta cycle,
advance time. -/
inductive Op
  | transport (trans : ApbPayload)
  | counterThread
  | driveOutputs
  | delta
  | advance (time : Nat)
deriving DecidableEq

/-- The kernel runs what is runnable in any order, ends the delta cycle only when nothing is, and advances
time only when nothing waits for a delta cycle, no further than `counter_thread` waits. -/
def machine : Machine Watchdog Op Obs := fun w op =>
  match op with
  | .transport t => (w.bTransport t).map fun r => (r.1, r.2.2)
  | .counterThread =>
    match w.counterThread with
    | .start => some ({ w with counterThread := .waiting (w.now + w.tickPeriod) }, [])
    | .woken => some ({ w.tick with counterThread := .waiting (w.now + w.tickPeriod) }, [])
    | .waiting _ => none
  | .driveOutputs =>
    if w.driveOutputsReady then some ({ w with driveOutputsReady := false }.driveOutputs, []) else none
  | .delta => if w.Idle then some (w.deltaCycle, []) else none
  | .advance time =>
    match w.counterThread with
    | .waiting wake =>
      if w.Settled ∧ w.now < time ∧ time ≤ wake then
        some ({ w with now := time, counterThread := if time = wake then .woken else .waiting wake },
          [.outputs w.irq w.resetO])
      else none
    | _ => none

end Watchdog
end CdcVp
