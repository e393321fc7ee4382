import CdcVp.FlatStore
import CdcVp.LittleEndian
import CdcVp.Runs
import CdcVp.ScFifo
import CdcVp.Tlm

/-!
# `spi_controller`

The register file, the two FIFOs, the loop of `transmit` and the three methods, with the part of the kernel
they see: the delta notifications pending on the three events, the processes that are runnable, and the
clock in picoseconds. `machine` is the controller in the system: a transaction, the peripheral's answer, a
falling edge of `reset`, or one of the kernel's moves. A word carries the number of resets that came before
it; nothing is computed from that number.
-/

namespace CdcVp
open FlatStore LittleEndian Runs

structure SpiRegs where
  cr0 : UInt16
  cr1 : UInt16
  dr : UInt16
  sr : UInt16
  cpsr : UInt16
  imsc : UInt16
  ris : UInt16
  mis : UInt16
  icr : UInt16
  dmacr : UInt16
deriving DecidableEq, Repr, Inhabited

/-- A word of a FIFO and the epoch it came in with. -/
structure Word where
  val : UInt16
  epoch : Nat
deriving DecidableEq, Repr

/-- The locals of one round of `transmit`, and the epoch the round began in. -/
structure Frame where
  bitsPerFrame : Nat
  dataBuffer : UInt16
  epoch : Nat
deriving DecidableEq, Repr

/-- Where `transmit` is. It waits at `sleeping` for `transmission_event`, at `shifting` for the time, at
`settling` for a delta cycle, and inside the call of the peripheral at `inPeri`. -/
inductive Transmit
  | ready
  | sleeping
  | inPeri (f : Frame) (delay : Nat)
  | shifting (f : Frame) (wake : Nat)
  | shifted (f : Frame)
  | settling
  | settled
deriving DecidableEq, Repr

namespace Transmit

/-- The kernel may resume the thread. -/
def runnable : Transmit → Bool
  | .ready | .shifted _ | .settled => true
  | _ => false

/-- What the end of a delta cycle makes of a wait. -/
def delta (transmissionEvent : Bool) (now : Nat) : Transmit → Transmit
  | .sleeping => if transmissionEvent then .ready else .sleeping
  | .shifting f wake => if wake ≤ now then .shifted f else .shifting f wake
  | .settling => .settled
  | t => t

end Transmit

def fifoSize : Nat := 8

/-- `spi_controller`. `intrNext` is what `intr` takes at the next update. -/
structure Spi where
  reg : SpiRegs
  rxFifo : ScFifo Word fifoSize
  txFifo : ScFifo Word fifoSize
  isTransmitting : Bool
  intr : Bool
  intrNext : Bool
  transmissionEvent : Bool
  statusEvent : Bool
  possibleIntrEvent : Bool
  transmit : Transmit
  updateIntrReady : Bool
  updateStatusReady : Bool
  handleResetReady : Bool
  now : Nat
  epoch : Nat

namespace Spi

def periphId0 : UInt16 := 0x22
def periphId1 : UInt16 := 0x10
def periphId2 : UInt16 := 0x34
def periphId3 : UInt16 := 0x00
def cellId0 : UInt16 := 0x0d
def cellId1 : UInt16 := 0xf0
def cellId2 : UInt16 := 0x05
def cellId3 : UInt16 := 0xb1

/-- At start-up the registers hold anything, and `transmit` and `handle_reset` are runnable. -/
def powerUp (reg : SpiRegs) : Spi where
  reg := reg
  rxFifo := .empty
  txFifo := .empty
  isTransmitting := false
  intr := false
  intrNext := false
  transmissionEvent := false
  statusEvent := false
  possibleIntrEvent := false
  transmit := .ready
  updateIntrReady := false
  updateStatusReady := false
  handleResetReady := true
  now := 0
  epoch := 0

/-- The events of the controller that its data path shows. `accepted`: a write of DR entered `tx_fifo`.
`handed`: a word went to the peripheral in a frame of so many bits. `replied`: the peripheral answered.
`ended`: a frame completed, against a full `rx_fifo` or not. `popped`: a read of DR took a word and
returned `data`. -/
inductive Obs
  | accepted (w : Word)
  | handed (w : Word) (bits : Nat)
  | replied (reply : UInt16)
  | ended (f : Frame) (full : Bool)
  | popped (w : Word) (data : UInt16)
  | warning (text : String)
deriving DecidableEq, Repr

def putBits (c : Bool) (bits v : UInt16) : UInt16 := if c then v ||| bits else v &&& ~~~bits

def bitsPerFrame (cr0 : UInt16) : Nat := (cr0 &&& 0xF).toNat + 1

def frameMask (bits : Nat) : UInt16 := if bits = 16 then 0xFFFF else UInt16.ofNat (1 <<< bits - 1)

/-- The shift time of a frame at 100 MHz; a multiple of 10 ns, on which the source's `double` is exact. -/
def frameDelay (reg : SpiRegs) : Nat :=
  let cpsr := if reg.cpsr > 0 then reg.cpsr.toNat else 2
  let scr := (reg.cr0 >>> 8 &&& 0xFF).toNat
  bitsPerFrame reg.cr0 * (cpsr * (1 + scr)) * 10000

/-! ### The methods -/

def updateIntr (s : Spi) : Spi :=
  let mask := s.reg.imsc &&& 0x0F
  let ris := putBits (s.txFifo.numAvailable ≤ fifoSize / 2) 0x08 s.reg.ris
  let ris := putBits (s.rxFifo.numAvailable ≥ fifoSize / 2) 0x04 ris
  let mis := ris &&& mask
  { s with reg := { s.reg with ris := ris, mis := mis }, intrNext := mis &&& 0xf ≠ 0 }

def updateStatusReg (s : Spi) : Spi :=
  let sr := putBits (s.rxFifo.numAvailable = fifoSize) 0x8 s.reg.sr
  let sr := putBits (s.rxFifo.numAvailable ≠ 0) 0x4 sr
  let sr := putBits (s.txFifo.numFree ≠ 0) 0x2 sr
  let sr := putBits (s.txFifo.numFree = fifoSize) 0x1 sr
  let sr := putBits (s.isTransmitting || s.txFifo.numFree ≠ 8) 0x10 sr
  { s with reg := { s.reg with sr := sr } }

def handleReset (s : Spi) : Spi :=
  { s with
    reg := { cr0 := 0, cr1 := 0, dr := s.reg.dr, sr := 0x03, cpsr := 0, imsc := 0, ris := 0x8, mis := 0,
             icr := 0, dmacr := 0 }
    rxFifo := s.rxFifo.drain
    txFifo := s.txFifo.drain
    isTransmitting := false
    possibleIntrEvent := true
    handleResetReady := false
    epoch := s.epoch + 1 }.updateStatusReg

/-! ### The registers -/

/-- `write_reg`. A blocking `write` of the source follows a test of `num_free` and never blocks. -/
def writeReg (s : Spi) (offset : UInt8) (value : UInt16) : Spi × Bool × List Obs :=
  if offset = 0x00 then ({ s with reg := { s.reg with cr0 := value } }, true, [])
  else if offset = 0x04 then
    let cr1 := value &&& 0xf
    ({ s with
      reg := { s.reg with cr1 := cr1 }
      transmissionEvent := s.transmissionEvent || cr1 &&& 0x2 ≠ 0 }, true, [])
  else if offset = 0x08 then
    let s := { s with reg := { s.reg with dr := value } }
    match s.txFifo.nbWrite ⟨value, s.epoch⟩ with
    | some tx =>
      ({ s with txFifo := tx, possibleIntrEvent := true, transmissionEvent := true }.updateStatusReg, true,
        [.accepted ⟨value, s.epoch⟩])
    | none => (s, false, [])
  else if offset = 0x0c then
    (s, false, [.warning "Write attempt to Read-Only reg_sr at offset 0x0C."])
  else if offset = 0x10 then ({ s with reg := { s.reg with cpsr := value &&& 0xff &&& 0xfe } }, true, [])
  else if offset = 0x14 then
    ({ s with reg := { s.reg with imsc := value &&& 0xf }, possibleIntrEvent := true }, true, [])
  else if offset = 0x18 then
    (s, false, [.warning "Write attempt to Read-Only reg_ris at offset 0x18."])
  else if offset = 0x1c then
    (s, false, [.warning "Write attempt to Read-Only reg_mis at offset 0x18."])
  else if offset = 0x20 then
    ({ s with
      reg := { s.reg with icr := ~~~(value &&& 0x3) &&& 0x3, ris := s.reg.ris &&& ~~~(value &&& 0x03) }
      possibleIntrEvent := true }, true, [])
  else if offset = 0x24 then ({ s with reg := { s.reg with dmacr := value &&& 0x3 } }, true, [])
  else (s, false, [])

/-- `read_reg` at offset 0x08. -/
def readDr (s : Spi) : Spi × UInt16 × List Obs :=
  match s.rxFifo.nbRead with
  | none =>
    ({ s with reg := { s.reg with ris := s.reg.ris ||| 0x1 }, possibleIntrEvent := true }, 0,
      [.warning "Reading from empty Receive FIFO"])
  | some (w, rx) =>
    let data := w.val &&& frameMask (bitsPerFrame s.reg.cr0)
    ({ s with rxFifo := rx, possibleIntrEvent := true, statusEvent := true }, data, [.popped w data])

def readReg (s : Spi) (offset : UInt16) : Spi × UInt16 × List Obs :=
  if offset = 0x00 then (s, s.reg.cr0, [])
  else if offset = 0x04 then (s, s.reg.cr1, [])
  else if offset = 0x08 then s.readDr
  else if offset = 0x0c then (s, s.reg.sr &&& 0x1f, [])
  else if offset = 0x10 then (s, s.reg.cpsr &&& 0xff, [])
  else if offset = 0x14 then (s, s.reg.imsc &&& 0xf, [])
  else if offset = 0x18 then (s, s.reg.ris &&& 0xf, [])
  else if offset = 0x1c then (s, s.reg.mis &&& 0xf, [])
  else if offset = 0x20 then (s, 0, [])
  else if offset = 0x24 then (s, s.reg.dmacr &&& 0x3, [])
  else if offset = 0xFE0 then (s, periphId0, [])
  else if offset = 0xFE4 then (s, periphId1, [])
  else if offset = 0xFE8 then (s, periphId2, [])
  else if offset = 0xFEC then (s, periphId3, [])
  else if offset = 0xFF0 then (s, cellId0, [])
  else if offset = 0xFF4 then (s, cellId1, [])
  else if offset = 0xFF8 then (s, cellId2, [])
  else if offset = 0xFFC then (s, cellId3, [])
  else (s, 0, [])

/-- How `b_transport` ends: it returns the payload and the delay, or `SC_REPORT_ERROR` throws. -/
inductive Outcome
  | returned (trans : Payload) (delay : Nat)
  | thrown (msgType msg : String)
deriving DecidableEq, Repr

/-- `spi_controller::b_transport`; `none` where it goes past the buffer, which is undefined: a write takes
two bytes whatever the length. -/
def bTransport (s : Spi) (trans : Payload) (delay : Nat) : Option (Spi × Outcome × List Obs) :=
  let addr := trans.address
  let len := trans.dataLength
  if addr > 0xffc ∨ len > 2 then
    some (s, .thrown "TLM-2" "Target does not support given generic payload transaction", [])
  else
    let delay := delay + 20000
    let ptr := trans.dataPtr.getD []
    match trans.command with
    | .write =>
      if ptr.length < 2 then none
      else
        let (s, wrSuccess, o) := s.writeReg addr.toUInt8 (UInt16.ofNat (value (ptr.take 2)))
        some (s, .returned { trans with responseStatus := if wrSuccess then .ok else .genericError } delay, o)
    | .read =>
      if ptr.length < min 2 len.toNat then none
      else
        let (s, rdData, o) := s.readReg addr.toUInt16
        let ptr := blit ptr 0 ((bytes 2 rdData.toNat).take (min 2 len.toNat))
        some (s, .returned { trans with
          dataPtr := trans.dataPtr.map fun _ => ptr, responseStatus := .ok } delay, o)
    | .ignore => some (s, .returned { trans with responseStatus := .ok } delay, [])

/-! ### The thread -/

/-- `transmit` from the head of its loop to `wait(transmission_event)` or into the peripheral. The blocking
`read` follows a test of `num_available` and never blocks. -/
def transmitHead (s : Spi) : Spi × List Obs :=
  match if s.reg.cr1 &&& 0x2 = 0 then none else s.txFifo.nbRead with
  | none => ({ s with isTransmitting := false, statusEvent := true, transmit := .sleeping }, [])
  | some (w, tx) =>
    let bits := bitsPerFrame s.reg.cr0
    ({ s with
      isTransmitting := true
      statusEvent := true
      txFifo := tx
      transmit := .inPeri ⟨bits, w.val, s.epoch⟩ (frameDelay s.reg) }, [.handed w bits])

/-- From `wait(delay)` to `wait(SC_ZERO_TIME)`. -/
def transmitStore (s : Spi) (f : Frame) : Spi × List Obs :=
  match s.rxFifo.nbWrite ⟨f.dataBuffer &&& frameMask f.bitsPerFrame, f.epoch⟩ with
  | none =>
    ({ s with reg := { s.reg with ris := s.reg.ris ||| 0x1 }, transmit := .settling }, [.ended f true])
  | some rx => ({ s with rxFifo := rx, transmit := .settling }, [.ended f false])

/-! ### The controller in the system -/

/-- Nothing of the controller is left to run. -/
def Idle (s : Spi) : Prop :=
  s.transmit.runnable = false ∧ s.updateIntrReady = false ∧ s.updateStatusReady = false ∧
    s.handleResetReady = false

/-- Nothing waits for the next delta cycle either. -/
def Settled (s : Spi) : Prop :=
  s.Idle ∧ s.transmit ≠ .settling ∧ s.transmissionEvent = false ∧ s.statusEvent = false ∧
    s.possibleIntrEvent = false ∧ s.intr = s.intrNext ∧ s.rxFifo.numRead = 0 ∧ s.rxFifo.numWritten = 0 ∧
    s.txFifo.numRead = 0 ∧ s.txFifo.numWritten = 0

instance (s : Spi) : Decidable s.Idle := by unfold Idle; infer_instance
instance (s : Spi) : Decidable s.Settled := by unfold Settled; infer_instance

/-- The update phase and the delta notification phase. -/
def deltaCycle (s : Spi) : Spi :=
  { s with
    rxFifo := s.rxFifo.update
    txFifo := s.txFifo.update
    intr := s.intrNext
    transmissionEvent := false
    statusEvent := false
    possibleIntrEvent := false
    transmit := s.transmit.delta s.transmissionEvent s.now
    updateIntrReady := s.possibleIntrEvent
    updateStatusReady := s.statusEvent }

/-- What the rest of the system does to the controller: a transaction, the return of the peripheral's
`b_transport` with its reply in the buffer and the delay it leaves, a falling edge of `reset`; or what the
kernel does: resume `transmit`, run one of the methods, end the delta cycle, advance time. -/
inductive Op
  | transport (trans : Payload) (delay : Nat)
  | periReturn (reply : UInt16) (delay : Nat)
  | resetNeg
  | transmit
  | updateIntr
  | updateStatusReg
  | handleReset
  | delta
  | advance (time : Nat)
deriving DecidableEq

/-- The kernel runs what is runnable in any order, ends the delta cycle only when nothing is, and advances
time only when nothing waits for a delta cycle, no further than `transmit` waits. -/
def machine : Machine Spi Op Obs := fun s op =>
  match op with
  | .transport t delay => (s.bTransport t delay).map fun r => (r.1, r.2.2)
  | .periReturn reply delay =>
    match s.transmit with
    | .inPeri f _ =>
      some ({ s with transmit := .shifting { f with dataBuffer := reply } (s.now + delay) }, [.replied reply])
    | _ => none
  | .resetNeg => some ({ s with handleResetReady := true }, [])
  | .transmit =>
    match s.transmit with
    | .ready => some s.transmitHead
    | .shifted f => some (s.transmitStore f)
    | .settled => some { s with statusEvent := true, possibleIntrEvent := true }.transmitHead
    | _ => none
  | .updateIntr => if s.updateIntrReady then some ({ s with updateIntrReady := false }.updateIntr, []) else none
  | .updateStatusReg =>
    if s.updateStatusReady then some ({ s with updateStatusReady := false }.updateStatusReg, []) else none
  | .handleReset => if s.handleResetReady then some (s.handleReset, []) else none
  | .delta => if s.Idle then some (s.deltaCycle, []) else none
  | .advance time =>
    if s.Settled ∧ s.now < time then
      match s.transmit with
      | .shifting f wake =>
        if time < wake then some ({ s with now := time }, [])
        else if time = wake then some ({ s with now := time, transmit := .shifted f }, [])
        else none
      | _ => some ({ s with now := time }, [])
    else none

end Spi
end CdcVp
