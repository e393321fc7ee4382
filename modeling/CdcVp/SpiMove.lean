import CdcVp.Spi

/-!
# The moves of the SPI controller

`Move` lists what a step of the machine can do, with the state it leaves written out; what the registers,
the events and the processes obey along runs is proved from the list. The first such fact: a sleeping
`transmit` that nothing is about to wake has nothing to do.
-/

namespace CdcVp
open FlatStore LittleEndian Runs

namespace Spi
variable {s s' : Spi} {op : Op} {o : List Obs}

/-- What a transaction does: it writes registers on which nothing depends, writes CR1, fills `tx_fifo`,
writes what an interrupt depends on, or reads `rx_fifo`. -/
inductive BusMove (s : Spi) : Spi → List Obs → Prop
  | plain {o : List Obs} (reg : SpiRegs) (cr1 : reg.cr1 = s.reg.cr1) (sr : reg.sr = s.reg.sr)
      (imsc : reg.imsc = s.reg.imsc) (ris : reg.ris = s.reg.ris) (mis : reg.mis = s.reg.mis)
      (ho : ∀ e ∈ o, ∃ text, e = .warning text) : BusMove s { s with reg := reg } o
  | enable (v : UInt16) : BusMove s { s with
      reg := { s.reg with cr1 := v }
      transmissionEvent := s.transmissionEvent || v &&& 0x2 ≠ 0 } []
  | accept (v : UInt16) (tx : ScFifo Word fifoSize) (htx : s.txFifo.nbWrite ⟨v, s.epoch⟩ = some tx) :
      BusMove s { s with
        reg := { s.reg with dr := v }
        txFifo := tx
        possibleIntrEvent := true
        transmissionEvent := true }.updateStatusReg [.accepted ⟨v, s.epoch⟩]
  | request {o : List Obs} (reg : SpiRegs) (cr1 : reg.cr1 = s.reg.cr1) (sr : reg.sr = s.reg.sr)
      (ho : ∀ e ∈ o, ∃ text, e = .warning text) :
      BusMove s { s with reg := reg, possibleIntrEvent := true } o
  | pop (w : Word) (data : UInt16) (rx : ScFifo Word fifoSize) (hrx : s.rxFifo.nbRead = some (w, rx)) :
      BusMove s { s with rxFifo := rx, possibleIntrEvent := true, statusEvent := true } [.popped w data]

theorem warned (text : String) : ∀ e ∈ [Obs.warning text], ∃ t, e = .warning t :=
  fun _ he => ⟨text, List.mem_singleton.1 he⟩

theorem BusMove.none (ho : ∀ e ∈ o, ∃ text, e = .warning text) : BusMove s s o :=
  .plain s.reg rfl rfl rfl rfl rfl ho

theorem writeReg_move {offset : UInt8} {value : UInt16} {ok : Bool}
    (h : s.writeReg offset value = (s', ok, o)) : BusMove s s' o := by
  have silent : ∀ e ∈ ([] : List Obs), ∃ text, e = .warning text := List.forall_mem_nil _
  unfold writeReg at h
  rcases ite_eq_iff.1 h with ⟨-, h⟩ | ⟨-, h⟩
  · cases h
    exact .plain _ rfl rfl rfl rfl rfl silent
  rcases ite_eq_iff.1 h with ⟨-, h⟩ | ⟨-, h⟩
  · cases h
    exact .enable _
  rcases ite_eq_iff.1 h with ⟨-, h⟩ | ⟨-, h⟩
  · dsimp only at h
    split at h
    · rename_i tx htx
      cases h
      exact .accept _ _ htx
    · cases h
      exact .plain _ rfl rfl rfl rfl rfl silent
  rcases ite_eq_iff.1 h with ⟨-, h⟩ | ⟨-, h⟩
  · cases h
    exact .none (warned _)
  rcases ite_eq_iff.1 h with ⟨-, h⟩ | ⟨-, h⟩
  · cases h
    exact .plain _ rfl rfl rfl rfl rfl silent
  rcases ite_eq_iff.1 h with ⟨-, h⟩ | ⟨-, h⟩
  · cases h
    exact .request _ rfl rfl silent
  rcases ite_eq_iff.1 h with ⟨-, h⟩ | ⟨-, h⟩
  · cases h
    exact .none (warned _)
  rcases ite_eq_iff.1 h with ⟨-, h⟩ | ⟨-, h⟩
  · cases h
    exact .none (warned _)
  rcases ite_eq_iff.1 h with ⟨-, h⟩ | ⟨-, h⟩
  · cases h
    exact .request _ rfl rfl silent
  rcases ite_eq_iff.1 h with ⟨-, h⟩ | ⟨-, h⟩ <;> cases h
  · exact .plain _ rfl rfl rfl rfl rfl silent
  · exact .none silent

theorem readDr_move {data : UInt16} (h : s.readDr = (s', data, o)) : BusMove s s' o := by
  unfold readDr at h
  split at h
  · cases h
    exact .request _ rfl rfl (warned _)
  · rename_i w rx hrx
    cases h
    exact .pop w _ rx hrx

theorem readReg_cases {offset data : UInt16} (h : s.readReg offset = (s', data, o)) :
    s' = s ∧ o = [] ∧ offset ≠ 0x08 ∨ offset = 0x08 ∧ s.readDr = (s', data, o) := by
  by_cases h08 : offset = 0x08
  · subst h08
    simp +decide only [readReg, if_true, if_false] at h
    exact .inr ⟨rfl, h⟩
  unfold readReg at h
  rw [if_neg h08] at h
  repeat
    rcases ite_eq_iff.1 h with ⟨-, h⟩ | ⟨-, h⟩
    · cases h
      exact .inl ⟨rfl, rfl, h08⟩
  cases h
  exact .inl ⟨rfl, rfl, h08⟩

theorem readReg_move {offset data : UInt16} (h : s.readReg offset = (s', data, o)) : BusMove s s' o := by
  rcases readReg_cases h with ⟨rfl, rfl, -⟩ | ⟨-, h⟩
  · exact .none (List.forall_mem_nil _)
  · exact readDr_move h

theorem bTransport_move {t : Payload} {d : Nat} {out : Outcome} (h : s.bTransport t d = some (s', out, o)) :
    BusMove s s' o := by
  unfold bTransport at h
  dsimp only at h
  split at h
  · cases h
    exact .none (List.forall_mem_nil _)
  split at h
  · split at h
    · cases h
    · cases h
      exact writeReg_move rfl
  · split at h
    · cases h
    · cases h
      exact readReg_move rfl
  · cases h
    exact .none (List.forall_mem_nil _)

theorem bTransport_write {t t' : Payload} {d d' : Nat} (hc : t.command = .write)
    (h : s.bTransport t d = some (s', .returned t' d', o)) :
    ∃ v ok, s.writeReg t.address.toUInt8 v = (s', ok, o) ∧
      t'.responseStatus = if ok then .ok else .genericError := by
  unfold bTransport at h
  dsimp only at h
  split at h
  · cases h
  · rw [hc] at h
    dsimp only at h
    split at h
    · cases h
    · cases h
      exact ⟨_, _, rfl, rfl⟩

/-- What a step of the machine does. The head of the loop of `transmit` is reached from `ready`, or from
`settled` with the notifications of a frame's end. -/
inductive Move (s : Spi) : Op → Spi → List Obs → Prop
  | bus {s' : Spi} {o : List Obs} (t : Payload) (d : Nat) (h : BusMove s s' o) :
      Move s (.transport t d) s' o
  | reply (f : Frame) (d : Nat) (r : UInt16) (delay : Nat) (peri : s.transmit = .inPeri f d) :
      Move s (.periReturn r delay)
        { s with transmit := .shifting { f with dataBuffer := r } (s.now + delay) } [.replied r]
  | resetNeg : Move s .resetNeg { s with handleResetReady := true } []
  | sleep (intr : Bool) (head : s.transmit = .ready ∧ intr = s.possibleIntrEvent ∨
        s.transmit = .settled ∧ intr = true)
      (hno : s.reg.cr1 &&& 0x2 = 0 ∨ s.txFifo.numAvailable = 0) :
      Move s .transmit { s with
        isTransmitting := false
        statusEvent := true
        possibleIntrEvent := intr
        transmit := .sleeping } []
  | hand (intr : Bool) (head : s.transmit = .ready ∧ intr = s.possibleIntrEvent ∨
        s.transmit = .settled ∧ intr = true)
      (w : Word) (tx : ScFifo Word fifoSize) (sse : s.reg.cr1 &&& 0x2 ≠ 0)
      (htx : s.txFifo.nbRead = some (w, tx)) :
      Move s .transmit { s with
        isTransmitting := true
        statusEvent := true
        possibleIntrEvent := intr
        txFifo := tx
        transmit := .inPeri ⟨bitsPerFrame s.reg.cr0, w.val, s.epoch⟩ (frameDelay s.reg) }
        [.handed w (bitsPerFrame s.reg.cr0)]
  | store (f : Frame) (shifted : s.transmit = .shifted f) (rx : ScFifo Word fifoSize)
      (hrx : s.rxFifo.nbWrite ⟨f.dataBuffer &&& frameMask f.bitsPerFrame, f.epoch⟩ = some rx) :
      Move s .transmit { s with rxFifo := rx, transmit := .settling } [.ended f false]
  | drop (f : Frame) (shifted : s.transmit = .shifted f) (full : s.rxFifo.numFree = 0) :
      Move s .transmit { s with reg := { s.reg with ris := s.reg.ris ||| 0x1 }, transmit := .settling }
        [.ended f true]
  | updateIntr (ready : s.updateIntrReady = true) :
      Move s .updateIntr { s with updateIntrReady := false }.updateIntr []
  | updateStatusReg (ready : s.updateStatusReady = true) :
      Move s .updateStatusReg { s with updateStatusReady := false }.updateStatusReg []
  | handleReset (ready : s.handleResetReady = true) : Move s .handleReset s.handleReset []
  | delta (idle : s.Idle) : Move s .delta s.deltaCycle []
  | advance (time : Nat) (settled : s.Settled) (later : s.now < time)
      (hno : ∀ f wake, s.transmit = .shifting f wake → time < wake) :
      Move s (.advance time) { s with now := time } []
  | wake (f : Frame) (wake : Nat) (shifting : s.transmit = .shifting f wake) (settled : s.Settled)
      (later : s.now < wake) :
      Move s (.advance wake) { s with now := wake, transmit := .shifted f } []

theorem transmitHead_eq (s : Spi) :
    (s.reg.cr1 &&& 0x2 = 0 ∨ s.txFifo.numAvailable = 0) ∧
      s.transmitHead = ({ s with isTransmitting := false, statusEvent := true, transmit := .sleeping }, []) ∨
    s.reg.cr1 &&& 0x2 ≠ 0 ∧ ∃ w tx, s.txFifo.nbRead = some (w, tx) ∧ s.transmitHead =
      ({ s with
        isTransmitting := true
        statusEvent := true
        txFifo := tx
        transmit := .inPeri ⟨bitsPerFrame s.reg.cr0, w.val, s.epoch⟩ (frameDelay s.reg) },
        [.handed w (bitsPerFrame s.reg.cr0)]) := by
  unfold transmitHead
  by_cases hsse : s.reg.cr1 &&& 0x2 = 0
  · rw [if_pos hsse]
    exact .inl ⟨.inl hsse, rfl⟩
  rw [if_neg hsse]
  cases hr : s.txFifo.nbRead with
  | none => exact .inl ⟨.inr (ScFifo.nbRead_eq_none.1 hr), rfl⟩
  | some r => exact .inr ⟨hsse, r.1, r.2, rfl, rfl⟩

theorem transmitStore_move {f : Frame} (shifted : s.transmit = .shifted f)
    (h : s.transmitStore f = (s', o)) : Move s .transmit s' o := by
  unfold transmitStore at h
  split at h
  · rename_i hn
    cases h
    exact .drop f shifted (ScFifo.nbWrite_eq_none.1 hn)
  · rename_i rx hrx
    cases h
    exact .store f shifted rx hrx

theorem machine_move (h : machine s op = some (s', o)) : Move s op s' o := by
  cases op with
  | transport t d =>
    obtain ⟨⟨a, out, o'⟩, hb, heq⟩ := Option.map_eq_some_iff.1 h
    cases heq
    exact .bus t d (bTransport_move hb)
  | periReturn r delay =>
    simp only [machine] at h
    split at h
    · rename_i f d hp
      cases h
      exact .reply f d r delay hp
    · cases h
  | resetNeg =>
    cases h
    exact .resetNeg
  | transmit =>
    simp only [machine] at h
    split at h
    · rename_i ht
      rcases transmitHead_eq s with ⟨hno, he⟩ | ⟨hsse, w, tx, htx, he⟩
      · cases he.symm.trans (Option.some.inj h)
        exact .sleep _ (.inl ⟨ht, rfl⟩) hno
      · cases he.symm.trans (Option.some.inj h)
        exact .hand _ (.inl ⟨ht, rfl⟩) w tx hsse htx
    · rename_i f ht
      exact transmitStore_move ht (Option.some.inj h)
    · rename_i ht
      rcases transmitHead_eq { s with statusEvent := true, possibleIntrEvent := true }
        with ⟨hno, he⟩ | ⟨hsse, w, tx, htx, he⟩
      · cases he.symm.trans (Option.some.inj h)
        exact .sleep _ (.inr ⟨ht, rfl⟩) hno
      · cases he.symm.trans (Option.some.inj h)
        exact .hand _ (.inr ⟨ht, rfl⟩) w tx hsse htx
    · cases h
  | updateIntr =>
    simp only [machine] at h
    split at h
    · rename_i hr
      cases h
      exact .updateIntr hr
    · cases h
  | updateStatusReg =>
    simp only [machine] at h
    split at h
    · rename_i hr
      cases h
      exact .updateStatusReg hr
    · cases h
  | handleReset =>
    simp only [machine] at h
    split at h
    · rename_i hr
      cases h
      exact .handleReset hr
    · cases h
  | delta =>
    simp only [machine] at h
    split at h
    · rename_i hi
      cases h
      exact .delta hi
    · cases h
  | advance time =>
    simp only [machine] at h
    split at h
    · rename_i hs
      split at h
      · rename_i f wk ht
        split at h
        · rename_i hlt
          cases h
          refine .advance time hs.1 hs.2 ?_
          intro g wk' hg
          obtain ⟨rfl, rfl⟩ := Transmit.shifting.inj (ht.symm.trans hg)
          exact hlt
        · split at h
          · rename_i heq
            cases h
            exact heq ▸ .wake f wk ht hs.1 (heq ▸ hs.2)
          · cases h
      · rename_i hno
        cases h
        exact .advance time hs.1 hs.2 fun f wake hf => absurd hf (hno f wake)
    · cases h

/-! ### The transmitter wakes -/

theorem delta_eq_sleeping {t : Transmit} {ev : Bool} {now : Nat} (h : t.delta ev now = .sleeping) :
    t = .sleeping ∧ ev = false := by
  cases t with
  | sleeping =>
    cases ev with
    | false => exact ⟨rfl, rfl⟩
    | true => cases h
  | shifting f wake =>
    simp only [Transmit.delta] at h
    split at h <;> cases h
  | ready | inPeri | shifted | settling | settled => cases h

/-- A word that enters `tx_fifo` comes with a notification of `transmission_event`, and where none is
pending a sleeping `transmit` has no word available or SSE off. -/
structure WakeInv (s : Spi) : Prop where
  written : s.txFifo.numWritten ≠ 0 → s.transmissionEvent = true
  asleep : s.transmit = .sleeping → s.transmissionEvent = false →
    s.reg.cr1 &&& 0x2 = 0 ∨ s.txFifo.numAvailable = 0

namespace WakeInv

theorem start (reg : SpiRegs) : WakeInv (powerUp reg) :=
  ⟨fun h => absurd rfl h, fun h => by cases h⟩

theorem bus (h : BusMove s s' o) (hs : WakeInv s) : WakeInv s' := by
  cases h with
  | plain reg cr1 | request reg cr1 =>
    refine ⟨hs.written, fun ht he => ?_⟩
    rw [cr1]
    exact hs.asleep ht he
  | enable v =>
    refine ⟨fun hw => by rw [hs.written hw]; rfl, fun ht he => .inl ?_⟩
    -- with SSE set the write itself notifies
    obtain ⟨-, hv⟩ := Bool.or_eq_false_iff.1 he
    simpa using hv
  | accept v tx htx => exact ⟨fun _ => rfl, fun _ he => by cases he⟩
  | pop w data rx hrx => exact ⟨hs.written, hs.asleep⟩

theorem step (h : Move s op s' o) (hs : WakeInv s) : WakeInv s' := by
  cases h with
  | bus t d h => exact hs.bus h
  | reply f d r delay peri => exact ⟨hs.written, fun ht => by cases ht⟩
  | resetNeg | updateIntr | updateStatusReg | advance => exact ⟨hs.written, hs.asleep⟩
  | sleep intr head hno => exact ⟨hs.written, fun _ _ => hno⟩
  | hand intr head w tx sse htx =>
    refine ⟨fun hw => hs.written ?_, fun ht => by cases ht⟩
    rwa [← (ScFifo.nbRead_eq_some htx).2.2.2]
  | store | drop | wake => exact ⟨hs.written, fun ht => by cases ht⟩
  | handleReset ready =>
    refine ⟨fun hw => hs.written ?_, fun _ _ => .inl UInt16.zero_and⟩
    rwa [← s.txFifo.drain_spec.2.2.2.1]
  | delta idle =>
    refine ⟨fun hw => absurd rfl hw, fun ht _ => ?_⟩
    obtain ⟨ht, he⟩ := delta_eq_sleeping ht
    refine (hs.asleep ht he).imp_right ?_
    intro hav
    have hw : s.txFifo.numWritten = 0 := by
      by_contra hne
      rw [hs.written hne] at he
      cases he
    show s.txFifo.update.numAvailable = 0
    rw [ScFifo.numAvailable_update, ScFifo.length_eq_numAvailable hw, hav]

theorem of_run {reg : SpiRegs} {is : List Op} {os : List Obs} (h : Run machine (powerUp reg) is os s) :
    WakeInv s :=
  h.inv WakeInv (start reg) fun _ _ _ _ hi hs => hs.step (machine_move hi)

end WakeInv
end Spi

open Spi

/-- The SPI transmitter has no lost wake-up: in every reachable state in which `transmit` waits for
`transmission_event` and no notification of it is pending, `tx_fifo` is empty or SSE is off, whatever
updates of the FIFOs are pending. -/
theorem spi_no_lost_wakeup (reg : SpiRegs) (is : List Op) (os : List Obs) (s : Spi)
    (hrun : Run machine (powerUp reg) is os s) (hsleep : s.transmit = .sleeping)
    (hnone : s.transmissionEvent = false) : s.txFifo.contents = [] ∨ s.reg.cr1 &&& 0x2 = 0 := by
  have hs := WakeInv.of_run hrun
  rcases hs.asleep hsleep hnone with hsse | hav
  · exact .inr hsse
  have hw : s.txFifo.numWritten = 0 := by
    by_contra hne
    rw [hs.written hne] at hnone
    cases hnone
  exact .inl (List.eq_nil_of_length_eq_zero ((ScFifo.length_eq_numAvailable hw).trans hav))

def spiWrite (addr : UInt64) (value : UInt16) : Payload :=
  ⟨.write, addr, some (bytes 2 value.toNat), 2, .incomplete, false⟩

/-- A word written while SSE is off: `transmit` wakes for it, finds SSE off and sleeps again. -/
def oneHeld : List Op :=
  [.handleReset, .transmit, .transport ⟨.write, 0x08, some [0x55, 0x00], 2, .incomplete, false⟩ 0, .delta,
    .updateIntr, .updateStatusReg, .transmit, .delta]

theorem spi_no_lost_wakeup_oneHeld : ∃ os s, Run machine (powerUp default) oneHeld os s ∧
    s.transmit = .sleeping ∧ s.txFifo.contents = [⟨0x55, 1⟩] ∧
    (s.txFifo.contents = [] ∨ s.reg.cr1 &&& 0x2 = 0) := by
  have hx : (exec machine (powerUp default) oneHeld).map (fun r =>
      (r.1.transmit, r.1.transmissionEvent, r.1.txFifo.contents)) =
        some (.sleeping, false, [⟨0x55, 1⟩]) := by decide +kernel
  obtain ⟨⟨s, os⟩, he, hs⟩ := Option.map_eq_some_iff.1 hx
  simp only [Prod.mk.injEq] at hs
  obtain ⟨hsleep, hnone, hc⟩ := hs
  have hrun := Run.of_exec he
  exact ⟨os, s, hrun, hsleep, hc, spi_no_lost_wakeup _ oneHeld os s hrun hsleep hnone⟩

end CdcVp
