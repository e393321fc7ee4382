import CdcVp.SpiMove

/-!
# What one step does to the SPI data path

`DataStep` lists the ways a word moves: into `tx_fifo`, from there into a frame, from the frame into
`rx_fifo`, and out of it. It is read off the moves of the controller; what holds along runs of the data
path is proved from the list.
-/

namespace CdcVp
open FlatStore LittleEndian Runs

namespace Spi
variable {s s' : Spi} {op : Op} {o : List Obs}

/-- The two states agree on the processes, the clock and the number of resets. -/
structure SameProcesses (s s' : Spi) : Prop where
  transmit : s'.transmit = s.transmit
  updateIntrReady : s'.updateIntrReady = s.updateIntrReady
  updateStatusReady : s'.updateStatusReady = s.updateStatusReady
  handleResetReady : s'.handleResetReady = s.handleResetReady
  intr : s'.intr = s.intr
  intrNext : s'.intrNext = s.intrNext
  now : s'.now = s.now
  epoch : s'.epoch = s.epoch

theorem SameProcesses.refl (s : Spi) : SameProcesses s s := ⟨rfl, rfl, rfl, rfl, rfl, rfl, rfl, rfl⟩

/-- What a transaction does to the FIFOs. -/
inductive Access (s s' : Spi) : List Obs → Prop
  | other {o : List Obs} (rx : s'.rxFifo = s.rxFifo) (tx : s'.txFifo = s.txFifo)
      (ho : ∀ e ∈ o, ∃ text, e = .warning text) : Access s s' o
  | accept (v : UInt16) (rx : s'.rxFifo = s.rxFifo) (tx : s.txFifo.nbWrite ⟨v, s.epoch⟩ = some s'.txFifo) :
      Access s s' [.accepted ⟨v, s.epoch⟩]
  | pop (w : Word) (data : UInt16) (rx : s.rxFifo.nbRead = some (w, s'.rxFifo)) (tx : s'.txFifo = s.txFifo) :
      Access s s' [.popped w data]

theorem Access.silent (rx : s'.rxFifo = s.rxFifo) (tx : s'.txFifo = s.txFifo) : Access s s' [] :=
  .other rx tx fun _ he => absurd he List.not_mem_nil

theorem BusMove.access (h : BusMove s s' o) : SameProcesses s s' ∧ Access s s' o := by
  have same : SameProcesses s s := .refl s
  cases h with
  | plain reg cr1 sr imsc ris mis ho => exact ⟨{ same with }, .other rfl rfl ho⟩
  | enable v => exact ⟨{ same with }, .silent rfl rfl⟩
  | accept v tx htx => exact ⟨{ same with }, .accept v rfl htx⟩
  | request reg cr1 sr ho => exact ⟨{ same with }, .other rfl rfl ho⟩
  | pop w data rx hrx => exact ⟨{ same with }, .pop w data hrx rfl⟩

/-- What a step does to the data path. -/
inductive DataStep (s s' : Spi) : List Obs → Prop
  | access {o : List Obs} (same : SameProcesses s s') (h : Access s s' o) : DataStep s s' o
  | quiet (transmit : s'.transmit = s.transmit) (rx : s'.rxFifo = s.rxFifo) (tx : s'.txFifo = s.txFifo)
      (epoch : s'.epoch = s.epoch) : DataStep s s' []
  | sleep (head : s.transmit = .ready ∨ s.transmit = .settled) (transmit : s'.transmit = .sleeping)
      (rx : s'.rxFifo = s.rxFifo) (tx : s'.txFifo = s.txFifo) (epoch : s'.epoch = s.epoch) : DataStep s s' []
  | hand (w : Word) (head : s.transmit = .ready ∨ s.transmit = .settled)
      (transmit : s'.transmit = .inPeri ⟨bitsPerFrame s.reg.cr0, w.val, s.epoch⟩ (frameDelay s.reg))
      (rx : s'.rxFifo = s.rxFifo) (tx : s.txFifo.nbRead = some (w, s'.txFifo)) (epoch : s'.epoch = s.epoch) :
      DataStep s s' [.handed w (bitsPerFrame s.reg.cr0)]
  | reply (f : Frame) (d wake : Nat) (r : UInt16) (peri : s.transmit = .inPeri f d)
      (transmit : s'.transmit = .shifting { f with dataBuffer := r } wake)
      (rx : s'.rxFifo = s.rxFifo) (tx : s'.txFifo = s.txFifo) (epoch : s'.epoch = s.epoch) :
      DataStep s s' [.replied r]
  | wake (f : Frame) (wake : Nat) (shifting : s.transmit = .shifting f wake)
      (transmit : s'.transmit = .shifted f) (rx : s'.rxFifo = s.rxFifo) (tx : s'.txFifo = s.txFifo)
      (epoch : s'.epoch = s.epoch) : DataStep s s' []
  | store (f : Frame) (shifted : s.transmit = .shifted f) (transmit : s'.transmit = .settling)
      (rx : s.rxFifo.nbWrite ⟨f.dataBuffer &&& frameMask f.bitsPerFrame, f.epoch⟩ = some s'.rxFifo)
      (tx : s'.txFifo = s.txFifo) (epoch : s'.epoch = s.epoch) : DataStep s s' [.ended f false]
  | drop (f : Frame) (shifted : s.transmit = .shifted f) (transmit : s'.transmit = .settling)
      (full : s.rxFifo.numFree = 0) (ris : s'.reg.ris = s.reg.ris ||| 1)
      (rx : s'.rxFifo = s.rxFifo) (tx : s'.txFifo = s.txFifo) (epoch : s'.epoch = s.epoch) :
      DataStep s s' [.ended f true]
  | reset (ready : s.handleResetReady = true) (transmit : s'.transmit = s.transmit)
      (rx : s'.rxFifo = s.rxFifo.drain) (tx : s'.txFifo = s.txFifo.drain) (epoch : s'.epoch = s.epoch + 1) :
      DataStep s s' []
  | delta (idle : s.Idle) (transmit : s'.transmit = s.transmit.delta s.transmissionEvent s.now)
      (rx : s'.rxFifo = s.rxFifo.update) (tx : s'.txFifo = s.txFifo.update) (epoch : s'.epoch = s.epoch) :
      DataStep s s' []

theorem Move.dataStep (h : Move s op s' o) : DataStep s s' o := by
  cases h with
  | bus t d h =>
    obtain ⟨same, ha⟩ := h.access
    exact .access same ha
  | reply f d r delay peri => exact .reply f d _ r peri rfl rfl rfl rfl
  | resetNeg | updateIntr | updateStatusReg | advance => exact .quiet rfl rfl rfl rfl
  | sleep intr head hno => exact .sleep (head.imp And.left And.left) rfl rfl rfl rfl
  | hand intr head w tx sse htx => exact .hand w (head.imp And.left And.left) rfl rfl htx rfl
  | store f shifted rx hrx => exact .store f shifted rfl hrx rfl rfl
  | drop f shifted full => exact .drop f shifted rfl full rfl rfl rfl rfl
  | handleReset ready => exact .reset ready rfl rfl rfl rfl
  | delta idle => exact .delta idle rfl rfl rfl rfl
  | wake f wake shifting settled later => exact .wake f wake shifting rfl rfl rfl rfl

theorem machine_dataStep (h : machine s op = some (s', o)) : DataStep s s' o :=
  (machine_move h).dataStep

end Spi
end CdcVp
