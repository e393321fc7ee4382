import CdcVp.SpiMove

/-!
# What SR shows

SR is a summary of counts, computed by `update_status_reg` and shown until it is computed again. `Shows` says
what a value of SR says of given counts, `StatusDue` that a computation is sure to come. A settled state shows
the FIFOs as they are unless `handle_reset` has drained words of `tx_fifo`, whose places are free one update
later, and nothing was due: it computes SR at once.
-/

namespace CdcVp
open FlatStore LittleEndian Runs

namespace Spi
variable {s s' : Spi} {op : Op} {o : List Obs} {tr : List (Step Spi Op Obs)}

theorem testBit_putBits (c : Bool) (bits v : UInt16) {i : Nat} (hi : i < 16) :
    (putBits c bits v).toNat.testBit i = if bits.toNat.testBit i then c else v.toNat.testBit i := by
  cases c with
  | true =>
    rw [putBits, if_pos rfl, UInt16.toNat_or, Nat.testBit_or]
    cases bits.toNat.testBit i <;> simp
  | false =>
    rw [putBits, if_neg Bool.false_ne_true, UInt16.toNat_and, Nat.testBit_and]
    have hnot : (~~~bits).toNat.testBit i = !bits.toNat.testBit i := by
      rw [← UInt16.toNat_toBitVec, ← UInt16.toNat_toBitVec, UInt16.toBitVec_not, BitVec.testBit_toNat,
        BitVec.testBit_toNat, BitVec.getLsbD_not, decide_eq_true hi, Bool.true_and]
    rw [hnot]
    cases bits.toNat.testBit i <;> simp

/-- What the five bits of `sr` say of the words available in `rx_fifo`, the free places of `tx_fifo` and
`is_transmitting`. -/
structure Shows (sr : UInt16) (avail free : Nat) (busy : Bool) : Prop where
  tfe : sr.toNat.testBit 0 = decide (free = fifoSize)
  tnf : sr.toNat.testBit 1 = decide (free ≠ 0)
  rne : sr.toNat.testBit 2 = decide (avail ≠ 0)
  rff : sr.toNat.testBit 3 = decide (avail = fifoSize)
  bsy : sr.toNat.testBit 4 = (busy || decide (free ≠ fifoSize))

/-- SR shows the counts as they stand. -/
def ShowsCounts (s : Spi) : Prop :=
  Shows s.reg.sr s.rxFifo.numAvailable s.txFifo.numFree s.isTransmitting

theorem showsCounts_updateStatusReg (s : Spi) : s.updateStatusReg.ShowsCounts := by
  have hb : ∀ i < 5, (0x8 : UInt16).toNat.testBit i = decide (i = 3) ∧
      (0x4 : UInt16).toNat.testBit i = decide (i = 2) ∧ (0x2 : UInt16).toNat.testBit i = decide (i = 1) ∧
      (0x1 : UInt16).toNat.testBit i = decide (i = 0) ∧
      (0x10 : UInt16).toNat.testBit i = decide (i = 4) := by decide
  unfold ShowsCounts updateStatusReg
  constructor <;> simp only [testBit_putBits, Nat.reduceLT, hb, decide_true, decide_false, if_true,
    Nat.reduceEqDiff, Bool.false_eq_true, if_false]
  rfl

/-- With the other counts as they are, a value of SR shows both free counts or neither unless exactly one of
them is zero or exactly one is full. -/
theorem Shows.free_iff {sr : UInt16} {avail free free' : Nat} {busy : Bool} (h : Shows sr avail free busy) :
    Shows sr avail free' busy ↔ (free = fifoSize ↔ free' = fifoSize) ∧ (free = 0 ↔ free' = 0) := by
  constructor
  · intro h'
    exact ⟨decide_eq_decide.1 (h.tfe.symm.trans h'.tfe),
      not_iff_not.1 (decide_eq_decide.1 (h.tnf.symm.trans h'.tnf))⟩
  · rintro ⟨hfull, hzero⟩
    refine ⟨?_, ?_, h.rne, h.rff, ?_⟩
    · rw [h.tfe, decide_eq_decide.2 hfull]
    · rw [h.tnf, decide_eq_decide.2 (not_congr hzero)]
    · rw [h.bsy, decide_eq_decide.2 (not_congr hfull)]

/-- A computation of SR is sure to come before the state settles. -/
def StatusDue (s : Spi) : Prop :=
  s.statusEvent = true ∨ s.updateStatusReady = true ∨ s.transmit.runnable = true ∨ s.transmit = .settling

theorem not_statusDue (h : s.Settled) : ¬ s.StatusDue := by
  obtain ⟨⟨hrun, -, hready, -⟩, hset, -, hev, -⟩ := h
  rintro (he | he | he | he)
  · rw [hev] at he
    cases he
  · rw [hready] at he
    cases he
  · rw [hrun] at he
    cases he
  · exact hset he

/-- The step computes SR. -/
def ComputesSr (e : Step Spi Op Obs) : Prop :=
  e.input = .updateStatusReg ∨ e.input = .handleReset ∨ ∃ w, .accepted w ∈ e.obs

/-- `handle_reset` takes words from `tx_fifo`. -/
def DrainsTx (e : Step Spi Op Obs) : Prop := e.input = .handleReset ∧ e.pre.txFifo.numAvailable ≠ 0

/-- In this delta cycle `handle_reset` has taken words from `tx_fifo`. -/
def Drained (tr : List (Step Spi Op Obs)) : Prop := Latched DrainsTx (fun e => e.input = .delta) tr

/-- A delta cycle ends in which `handle_reset` has taken words from `tx_fifo`, and since then none has been
written or no place is counted as free. -/
def FreesDrained (tr : List (Step Spi Op Obs)) (e : Step Spi Op Obs) : Prop :=
  e.input = .delta ∧ Drained tr ∧ (e.pre.txFifo.numWritten = 0 ∨ e.pre.txFifo.numFree = 0)

/-- The places that a `handle_reset` freed came free after SR was last computed. -/
def DrainMissed (tr : List (Step Spi Op Obs)) : Prop := LatchedAt FreesDrained ComputesSr tr

/-- The words of `tx_fifo` that were read in this delta cycle went to `transmit`, which notifies `status_event`,
or to `handle_reset`, which leaves none available. -/
structure DrainInv (tr : List (Step Spi Op Obs)) (s : Spi) : Prop where
  drained : Drained tr → s.txFifo.numAvailable = 0 ∧ s.txFifo.numRead ≠ 0
  read : s.txFifo.numRead ≠ 0 → s.statusEvent = true ∨ Drained tr

namespace DrainInv
variable {e : Step Spi Op Obs}

theorem start (reg : SpiRegs) : DrainInv [] (powerUp reg) :=
  ⟨fun h => absurd h not_latched_nil, fun h => absurd rfl h⟩

theorem drained_snoc (hr : e.input ≠ .handleReset) (hd : e.input ≠ .delta) :
    Drained (tr ++ [e]) ↔ Drained tr := latched_keep (fun h => hr h.1) hd

/-- A step that reads no word of `tx_fifo`. -/
theorem congr (hs : DrainInv tr s) (hr : e.input ≠ .handleReset) (hd : e.input ≠ .delta)
    (hav : s'.txFifo.numAvailable = s.txFifo.numAvailable) (hread : s'.txFifo.numRead = s.txFifo.numRead)
    (hev : s.statusEvent = true → s'.statusEvent = true) : DrainInv (tr ++ [e]) s' := by
  refine ⟨?_, ?_⟩
  · rw [drained_snoc hr hd, hav, hread]
    exact hs.drained
  · rw [drained_snoc hr hd, hread]
    exact fun h => (hs.read h).imp_left hev

theorem bus {t : Payload} {d : Nat} (h : BusMove s s' o) (hs : DrainInv tr s) :
    DrainInv (tr ++ [⟨s, .transport t d, s', o⟩]) s' := by
  cases h with
  | plain | enable | request => exact hs.congr (by simp) (by simp) rfl rfl id
  | accept v tx htx =>
    exact hs.congr (by simp) (by simp) (ScFifo.numAvailable_of_nbWrite htx) (ScFifo.nbWrite_eq_some htx).2.2.1 id
  | pop => exact hs.congr (by simp) (by simp) rfl rfl fun _ => rfl

/-- A word that `transmit` takes was available, so `handle_reset` has not been there. -/
theorem hand {w : Word} {tx : ScFifo Word fifoSize} (hs : DrainInv tr s) (hr : e.input ≠ .handleReset)
    (hd : e.input ≠ .delta) (htx : s.txFifo.nbRead = some (w, tx)) (hev : s'.statusEvent = true) :
    DrainInv (tr ++ [e]) s' := by
  refine ⟨fun h => ?_, fun _ => .inl hev⟩
  rw [drained_snoc hr hd] at h
  have hav := ScFifo.numAvailable_of_nbRead htx
  rw [(hs.drained h).1] at hav
  cases hav

theorem handleReset (hs : DrainInv tr s) :
    DrainInv (tr ++ [⟨s, .handleReset, s.handleReset, o⟩]) s.handleReset := by
  have hsnoc : Drained (tr ++ [⟨s, .handleReset, s.handleReset, o⟩]) ↔
      s.txFifo.numAvailable ≠ 0 ∨ Drained tr := by
    refine latched_snoc.trans (or_congr (and_iff_right rfl) (and_iff_left ?_))
    exact Op.noConfusion
  have htx : s.handleReset.txFifo = s.txFifo.drain := rfl
  by_cases hav : s.txFifo.numAvailable = 0
  · have hsame : s.handleReset.txFifo = s.txFifo := htx.trans (ScFifo.drain_of_numAvailable hav)
    rw [or_iff_right (not_not.2 hav)] at hsnoc
    refine ⟨?_, ?_⟩
    · rw [hsnoc, hsame]
      exact hs.drained
    · rw [hsnoc, hsame]
      exact hs.read
  · refine ⟨fun _ => ?_, fun _ => .inr (hsnoc.2 (.inl hav))⟩
    rw [htx]
    exact ⟨s.txFifo.drain_spec.2.2.1, ScFifo.numRead_drain hav⟩

theorem step (h : Move s op s' o) (hs : DrainInv tr s) : DrainInv (tr ++ [⟨s, op, s', o⟩]) s' := by
  cases h with
  | bus t d h => exact hs.bus h
  | sleep => exact hs.congr (by simp) (by simp) rfl rfl fun _ => rfl
  | hand intr head w tx sse htx => exact hs.hand (by simp) (by simp) htx rfl
  | handleReset ready => exact hs.handleReset
  | delta idle =>
    refine ⟨fun h => absurd h ?_, fun h => absurd rfl h⟩
    exact not_latched_of_clears (fun h => Op.noConfusion h.1) rfl
  | reply | resetNeg | store | drop | updateIntr | updateStatusReg | advance | wake =>
    exact hs.congr (by simp) (by simp) rfl rfl id

end DrainInv

/-- Where no computation of SR is due, SR shows the counts iff `DrainMissed` does not hold; and then no word
is left to be counted as read. -/
structure StatusInv (tr : List (Step Spi Op Obs)) (s : Spi) : Prop where
  settling : s.rxFifo.numWritten ≠ 0 → s.transmit = .settling
  shows : ¬ s.StatusDue → (s.ShowsCounts ↔ ¬ DrainMissed tr)
  read : ¬ s.StatusDue → DrainMissed tr → s.txFifo.numRead = 0

namespace StatusInv

theorem start (reg : SpiRegs) : StatusInv [] (powerUp reg) :=
  ⟨fun h => absurd rfl h, fun h => absurd (.inr (.inr (.inl rfl))) h, fun _ h => absurd h not_latchedAt_nil⟩

theorem not_freesDrained {e : Step Spi Op Obs} (h : e.input ≠ .delta) : ¬ FreesDrained tr e := fun hf => h hf.1

/-- A step that computes SR. -/
theorem computed {e : Step Spi Op Obs} (hc : ComputesSr e) (hd : e.input ≠ .delta) (hs : s'.ShowsCounts)
    (hset : s'.rxFifo.numWritten ≠ 0 → s'.transmit = .settling) : StatusInv (tr ++ [e]) s' := by
  have hno : ¬ DrainMissed (tr ++ [e]) := not_latchedAt_of_clears (not_freesDrained hd) hc
  exact ⟨hset, fun _ => iff_of_true hs hno, fun _ h => absurd h hno⟩

/-- A step after which a computation is due. -/
theorem due (hd : s'.StatusDue) (hset : s'.rxFifo.numWritten ≠ 0 → s'.transmit = .settling) :
    StatusInv tr s' :=
  ⟨hset, fun h => absurd hd h, fun h => absurd hd h⟩

/-- A step that touches neither SR nor what it is computed from. -/
theorem congr {e : Step Spi Op Obs} (hs : StatusInv tr s) (hc : ¬ ComputesSr e) (hop : e.input ≠ .delta)
    (hsr : s'.reg.sr = s.reg.sr) (hrx : s'.rxFifo = s.rxFifo) (htx : s'.txFifo = s.txFifo)
    (hbusy : s'.isTransmitting = s.isTransmitting)
    (hset : s.transmit = .settling → s'.transmit = .settling) (hd : s.StatusDue → s'.StatusDue) :
    StatusInv (tr ++ [e]) s' := by
  have hkeep : DrainMissed (tr ++ [e]) ↔ DrainMissed tr := latchedAt_keep (not_freesDrained hop) hc
  refine ⟨?_, ?_, ?_⟩
  · rw [hrx]
    exact fun h => hset (hs.settling h)
  · intro hnd
    rw [hkeep, ShowsCounts, hsr, hrx, htx, hbusy]
    exact hs.shows fun h => hnd (hd h)
  · intro hnd
    rw [hkeep, htx]
    exact hs.read fun h => hnd (hd h)

theorem not_computesSr {t : Payload} {d : Nat} (ho : ∀ w, .accepted w ∉ o) :
    ¬ ComputesSr ⟨s, .transport t d, s', o⟩ := by
  rintro (h | h | ⟨w, hw⟩)
  · cases h
  · cases h
  · exact ho w hw

theorem not_accepted (ho : ∀ e ∈ o, ∃ text, e = .warning text) (w : Word) : .accepted w ∉ o := by
  intro hw
  obtain ⟨text, h⟩ := ho _ hw
  cases h

theorem bus {t : Payload} {d : Nat} (h : BusMove s s' o) (hs : StatusInv tr s) :
    StatusInv (tr ++ [⟨s, .transport t d, s', o⟩]) s' := by
  have hop : Op.transport t d ≠ .delta := Op.noConfusion
  cases h with
  | plain reg cr1 sr imsc ris mis ho =>
    exact hs.congr (not_computesSr (not_accepted ho)) hop sr rfl rfl rfl id id
  | request reg cr1 sr ho => exact hs.congr (not_computesSr (not_accepted ho)) hop sr rfl rfl rfl id id
  | enable v =>
    exact hs.congr (not_computesSr fun _ => List.not_mem_nil) hop rfl rfl rfl rfl id id
  | accept v tx htx =>
    exact computed (.inr (.inr ⟨_, List.mem_singleton_self _⟩)) hop (showsCounts_updateStatusReg _) hs.settling
  | pop w data rx hrx =>
    refine due (.inl rfl) fun hw => hs.settling ?_
    rwa [← (ScFifo.nbRead_eq_some hrx).2.2.2]

/-- A delta cycle at whose end no computation is due: it leaves SR, and moves the free count only where
`handle_reset` has drained `tx_fifo`. -/
theorem delta (idle : s.Idle) (hdr : DrainInv tr s) (hs : StatusInv tr s) :
    StatusInv (tr ++ [⟨s, .delta, s.deltaCycle, []⟩]) s.deltaCycle := by
  refine ⟨fun h => absurd rfl h, ?_, fun _ _ => rfl⟩
  intro hnd
  have hsettling : s.transmit ≠ .settling := fun ht => hnd (.inr (.inr (.inl (by
    show (s.transmit.delta _ _).runnable = true
    rw [ht]
    rfl))))
  have hnd' : ¬ s.StatusDue := by
    rintro (he | he | he | he)
    · exact hnd (.inr (.inl he))
    · rw [idle.2.2.1] at he
      cases he
    · rw [idle.1] at he
      cases he
    · exact hsettling he
  have hav : s.rxFifo.update.numAvailable = s.rxFifo.numAvailable := by
    rw [ScFifo.numAvailable_update, ScFifo.length_eq_numAvailable]
    by_contra hne
    exact hsettling (hs.settling hne)
  have hpost : s.deltaCycle.ShowsCounts ↔
      Shows s.reg.sr s.rxFifo.numAvailable s.txFifo.update.numFree s.isTransmitting := by
    rw [← hav]
    rfl
  have hc : ¬ ComputesSr ⟨s, .delta, s.deltaCycle, []⟩ := by
    rintro (h | h | ⟨w, hw⟩)
    · cases h
    · cases h
    · exact absurd hw List.not_mem_nil
  rw [DrainMissed, latchedAt_snoc, hpost]
  by_cases hmissed : DrainMissed tr
  · -- it had moved already, and this update leaves it where it is
    rw [ScFifo.numFree_update_of_numRead (hs.read hnd' hmissed)]
    exact (hs.shows hnd').trans (iff_of_false (not_not.2 hmissed) (not_not.2 (.inr ⟨hmissed, hc⟩)))
  rw [((hs.shows hnd').2 hmissed).free_iff, or_iff_left fun h => hmissed h.1]
  by_cases hd : Drained tr
  · obtain ⟨hnone, hread⟩ := hdr.drained hd
    rw [ScFifo.numFree_update_iff hnone hread]
    exact not_congr ⟨fun h => ⟨rfl, hd, h⟩, fun h => h.2.2⟩
  · have hread : s.txFifo.numRead = 0 := by
      by_contra hne
      rcases hdr.read hne with he | hd'
      · exact hnd (.inr (.inl he))
      · exact hd hd'
    rw [ScFifo.numFree_update_of_numRead hread]
    exact iff_of_true ⟨Iff.rfl, Iff.rfl⟩ fun h => hd h.2.1

theorem step (h : Move s op s' o) (hdr : DrainInv tr s) (hs : StatusInv tr s) :
    StatusInv (tr ++ [⟨s, op, s', o⟩]) s' := by
  have quiet : ∀ (op : Op) (b : Spi) (o : List Obs), op ≠ .updateStatusReg → op ≠ .handleReset →
      (∀ w, .accepted w ∉ o) → ¬ ComputesSr ⟨s, op, b, o⟩ := by
    rintro op b o h1 h2 h3 (h | h | ⟨w, hw⟩)
    · exact h1 h
    · exact h2 h
    · exact h3 w hw
  cases h with
  | bus t d h => exact hs.bus h
  | reply f d r delay peri =>
    refine hs.congr (quiet _ _ _ (by simp) (by simp) (by simp)) (by simp) rfl rfl rfl rfl ?_ ?_
    · intro h
      rw [peri] at h
      cases h
    · rintro (he | he | he | he)
      · exact .inl he
      · exact .inr (.inl he)
      · rw [peri] at he
        cases he
      · rw [peri] at he
        cases he
  | resetNeg | updateIntr | advance =>
    exact hs.congr (quiet _ _ _ (by simp) (by simp) (by simp)) (by simp) rfl rfl rfl rfl id id
  | sleep intr head hno =>
    refine due (.inl rfl) fun hw => ?_
    have ht := hs.settling hw
    rcases head with ⟨h, -⟩ | ⟨h, -⟩ <;> rw [h] at ht <;> cases ht
  | hand intr head w tx sse htx =>
    refine due (.inl rfl) fun hw => ?_
    have ht := hs.settling hw
    rcases head with ⟨h, -⟩ | ⟨h, -⟩ <;> rw [h] at ht <;> cases ht
  | store | drop => exact due (.inr (.inr (.inr rfl))) fun _ => rfl
  | updateStatusReg ready =>
    exact computed (.inl rfl) (by simp) (showsCounts_updateStatusReg _) hs.settling
  | handleReset ready =>
    refine computed (.inr (.inl rfl)) (by simp) (showsCounts_updateStatusReg _) fun hw => ?_
    refine hs.settling ?_
    rwa [← s.rxFifo.drain_spec.2.2.2.1]
  | delta idle => exact hs.delta idle hdr
  | wake f wake shifting settled later =>
    refine due (.inr (.inr (.inl rfl))) fun hw => ?_
    have ht := hs.settling hw
    rw [shifting] at ht
    cases ht

theorem of_run {reg : SpiRegs} {is : List Op} (h : Run (traced machine) (powerUp reg) is tr s) :
    DrainInv tr s ∧ StatusInv tr s :=
  h.trace (fun tr s => DrainInv tr s ∧ StatusInv tr s) ⟨.start reg, start reg⟩
    fun _ _ _ _ _ hi hs => ⟨hs.1.step (machine_move hi), hs.2.step (machine_move hi) hs.1⟩

end StatusInv

theorem testBit_readSr (s : Spi) {i : Nat} (hi : i < 5) :
    (s.readReg 0x0c).2.1.toNat.testBit i = s.reg.sr.toNat.testBit i := by
  have hmask : ∀ i < 5, (0x1f : UInt16).toNat.testBit i = true := by decide
  show (s.reg.sr &&& 0x1f).toNat.testBit i = _
  rw [UInt16.toNat_and, Nat.testBit_and, hmask i hi, Bool.and_true]

/-- In a settled state the counts are those of the FIFOs. -/
theorem Settled.showsCounts_iff (h : s.Settled) : s.ShowsCounts ↔
    Shows s.reg.sr s.rxFifo.contents.length (fifoSize - s.txFifo.contents.length) s.isTransmitting := by
  obtain ⟨-, -, -, -, -, -, -, hrx, htr, htx⟩ := h
  have hfree : s.txFifo.numFree = fifoSize - s.txFifo.contents.length := by
    rw [← ScFifo.numFree_update, ScFifo.numFree_update_of_numRead htr]
  rw [ShowsCounts, ScFifo.length_eq_numAvailable hrx, hfree]

end Spi

open Spi

/-- What an SPI status read shows. In a settled state of a run the value an SR read returns has TFE set iff
`tx_fifo` is empty, TNF iff it holds fewer than 8 words, RNE iff `rx_fifo` is not empty, RFF iff it holds 8
words and BSY iff `is_transmitting` or `tx_fifo` is not empty, iff since SR was last computed no delta cycle has
ended in which `handle_reset` took words from `tx_fifo`, with no word written since then or no place free. -/
theorem spi_status_accurate_iff (reg : SpiRegs) (is : List Op) (tr : List (Step Spi Op Obs)) (s : Spi)
    (hrun : Run (traced machine) (powerUp reg) is tr s) (hsettled : s.Settled) :
    (((s.readReg 0x0c).2.1.toNat.testBit 0 = true ↔ s.txFifo.contents = []) ∧
      ((s.readReg 0x0c).2.1.toNat.testBit 1 = true ↔ s.txFifo.contents.length < 8) ∧
      ((s.readReg 0x0c).2.1.toNat.testBit 2 = true ↔ s.rxFifo.contents ≠ []) ∧
      ((s.readReg 0x0c).2.1.toNat.testBit 3 = true ↔ s.rxFifo.contents.length = 8) ∧
      ((s.readReg 0x0c).2.1.toNat.testBit 4 = true ↔ s.isTransmitting = true ∨ s.txFifo.contents ≠ [])) ↔
    ¬ DrainMissed tr := by
  rw [← (StatusInv.of_run hrun).2.shows (not_statusDue hsettled), hsettled.showsCounts_iff]
  have hlen := s.txFifo.length_le
  have hfull : fifoSize - s.txFifo.contents.length = fifoSize ↔ s.txFifo.contents = [] := by
    rw [← List.length_eq_zero_iff]
    unfold fifoSize at *
    omega
  have hzero : fifoSize - s.txFifo.contents.length ≠ 0 ↔ s.txFifo.contents.length < 8 := by
    unfold fifoSize at *
    omega
  rw [testBit_readSr s (by decide), testBit_readSr s (by decide), testBit_readSr s (by decide),
    testBit_readSr s (by decide), testBit_readSr s (by decide)]
  constructor
  · rintro ⟨h0, h1, h2, h3, h4⟩
    refine ⟨?_, ?_, ?_, ?_, ?_⟩
    · exact Bool.eq_iff_iff.2 (h0.trans (hfull.symm.trans decide_eq_true_iff.symm))
    · exact Bool.eq_iff_iff.2 (h1.trans (hzero.symm.trans decide_eq_true_iff.symm))
    · exact Bool.eq_iff_iff.2 (h2.trans ((not_congr List.length_eq_zero_iff).symm.trans decide_eq_true_iff.symm))
    · exact Bool.eq_iff_iff.2 (h3.trans decide_eq_true_iff.symm)
    · refine Bool.eq_iff_iff.2 (h4.trans ?_)
      rw [Bool.or_eq_true, decide_eq_true_iff]
      exact or_congr_right (not_congr hfull.symm)
  · intro h
    rw [h.tfe, h.tnf, h.rne, h.rff, h.bsy]
    refine ⟨decide_eq_true_iff.trans hfull, decide_eq_true_iff.trans hzero, ?_, decide_eq_true_iff, ?_⟩
    · exact decide_eq_true_iff.trans (not_congr List.length_eq_zero_iff)
    · rw [Bool.or_eq_true, decide_eq_true_iff, Ne, hfull]

/-- A word queued with SSE off, and a reset once `transmit` sleeps again. -/
def resetQueued : List Op :=
  [.handleReset, .transmit, .transport ⟨.write, 0x08, some [0x55, 0x00], 2, .incomplete, false⟩ 0, .delta,
    .updateIntr, .updateStatusReg, .transmit, .delta, .updateStatusReg, .resetNeg, .handleReset, .delta,
    .updateIntr, .delta]

theorem run_resetQueued : ∃ tr s, Run (traced machine) (powerUp default) resetQueued tr s ∧ s.Settled ∧
    s.reg.sr = 0x12 ∧ s.txFifo.contents = [] := by
  have hx : (exec (traced machine) (powerUp default) resetQueued).map (fun r =>
      (decide r.1.Settled, r.1.reg.sr, r.1.txFifo.contents)) = some (true, 0x12, []) := by decide +kernel
  obtain ⟨⟨s, tr⟩, he, hs⟩ := Option.map_eq_some_iff.1 hx
  simp only [Prod.mk.injEq, decide_eq_true_iff] at hs
  exact ⟨tr, s, Run.of_exec he, hs⟩

theorem spi_status_accurate_iff_resetQueued : ∃ tr s,
    Run (traced machine) (powerUp default) resetQueued tr s ∧ s.Settled ∧ DrainMissed tr := by
  obtain ⟨tr, s, hrun, hset, hsr, hc⟩ := run_resetQueued
  refine ⟨tr, s, hrun, hset, not_not.1 fun hno => ?_⟩
  -- TFE is clear although `tx_fifo` is empty
  have htfe := ((spi_status_accurate_iff _ resetQueued tr s hrun hset).2 hno).1.2 hc
  rw [testBit_readSr s (by decide), hsr] at htfe
  exact absurd htfe (by decide)

/-- After the reset `tx_fifo` is empty, TFE is clear and BSY is set. -/
theorem not_status_accurate_resetQueued :
    ¬ ∀ (reg : SpiRegs) (is : List Op) (os : List Obs) (s : Spi),
      Run machine (powerUp reg) is os s → s.Settled →
        ((s.readReg 0x0c).2.1.toNat.testBit 0 = true ↔ s.txFifo.contents = []) ∧
        ((s.readReg 0x0c).2.1.toNat.testBit 1 = true ↔ s.txFifo.contents.length < 8) ∧
        ((s.readReg 0x0c).2.1.toNat.testBit 2 = true ↔ s.rxFifo.contents ≠ []) ∧
        ((s.readReg 0x0c).2.1.toNat.testBit 3 = true ↔ s.rxFifo.contents.length = 8) ∧
        ((s.readReg 0x0c).2.1.toNat.testBit 4 = true ↔
          s.isTransmitting = true ∨ s.txFifo.contents ≠ []) := by
  intro h
  obtain ⟨tr, s, hrun, hset, hsr, hc⟩ := run_resetQueued
  have htfe := (h _ _ _ s hrun.of_traced hset).1.2 hc
  rw [testBit_readSr s (by decide), hsr] at htfe
  exact absurd htfe (by decide)

end CdcVp
