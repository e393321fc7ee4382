import CdcVp.SpiStatus

/-!
# What RIS, MIS and `intr` show

`update_intr` computes RIS bits 2 and 3, MIS and `intr` a delta cycle after a notification. Every change of a
level, the mask or a sticky bit notifies, but one: a `transmit` that wakes from its sleep takes a word without.
`IntrInv` says that it is the only one, and that it shows when it takes the fifth available word.
-/

namespace CdcVp
open FlatStore LittleEndian Runs

namespace Spi
variable {s s' : Spi} {op : Op} {o : List Obs} {tr : List (Step Spi Op Obs)}

/-- RIS bit 3 shows the level of `tx_fifo` as it stands. -/
def ShowsTx (s : Spi) : Prop := s.reg.ris.toNat.testBit 3 = decide (s.txFifo.numAvailable ≤ 4)

/-- RIS bit 2, MIS and the line show what they are computed from as it stands. -/
structure ShowsOthers (s : Spi) : Prop where
  rx : s.reg.ris.toNat.testBit 2 = decide (4 ≤ s.rxFifo.numAvailable)
  mis : s.reg.mis = s.reg.ris &&& (s.reg.imsc &&& 0xf)
  intr : s.intrNext = decide (s.reg.mis &&& 0xf ≠ 0)

theorem ShowsTx.congr (hris : s'.reg.ris = s.reg.ris)
    (htx : s'.txFifo.numAvailable = s.txFifo.numAvailable) : s'.ShowsTx ↔ s.ShowsTx := by
  rw [ShowsTx, ShowsTx, hris, htx]

theorem ShowsOthers.congr (h : s.ShowsOthers) (hris : s'.reg.ris = s.reg.ris)
    (hmis : s'.reg.mis = s.reg.mis) (himsc : s'.reg.imsc = s.reg.imsc) (hnext : s'.intrNext = s.intrNext)
    (hrx : s'.rxFifo.numAvailable = s.rxFifo.numAvailable) : s'.ShowsOthers := by
  refine ⟨?_, ?_, ?_⟩
  · rw [hris, hrx, h.rx]
  · rw [hris, hmis, himsc, h.mis]
  · rw [hmis, hnext, h.intr]

theorem shows_updateIntr (s : Spi) : s.updateIntr.ShowsTx ∧ s.updateIntr.ShowsOthers := by
  refine ⟨?_, ?_, rfl, rfl⟩
  · show (putBits _ 0x04 (putBits _ 0x08 _)).toNat.testBit 3 = _
    rw [testBit_putBits _ _ _ (by decide), testBit_putBits _ _ _ (by decide), if_neg (by decide),
      if_pos (by decide)]
    rfl
  · show (putBits _ 0x04 _).toNat.testBit 2 = _
    rw [testBit_putBits _ _ _ (by decide), if_pos (by decide)]
    rfl

/-- A run of `update_intr` is sure to come before the state settles. -/
def IntrDue (s : Spi) : Prop :=
  s.possibleIntrEvent = true ∨ s.updateIntrReady = true ∨ s.handleResetReady = true ∨
    s.transmit = .settling ∨ s.transmit = .settled ∨ ∃ f, s.transmit = .shifted f

theorem not_intrDue (h : s.Settled) : ¬ s.IntrDue := by
  obtain ⟨⟨hrun, hready, -, hreset⟩, hset, -, -, hev, -⟩ := h
  rintro (he | he | he | he | he | ⟨f, he⟩)
  · rw [hev] at he
    cases he
  · rw [hready] at he
    cases he
  · rw [hreset] at he
    cases he
  · exact hset he
  · rw [he] at hrun
    cases hrun
  · rw [he] at hrun
    cases hrun

theorem IntrDue.of_ready (ht : s.transmit = .ready) (hd : s.IntrDue)
    (hev : s'.possibleIntrEvent = s.possibleIntrEvent) (hready : s'.updateIntrReady = s.updateIntrReady)
    (hreset : s'.handleResetReady = s.handleResetReady) : s'.IntrDue := by
  rcases hd with h | h | h | h | h | ⟨f, h⟩
  · exact .inl (hev.trans h)
  · exact .inr (.inl (hready.trans h))
  · exact .inr (.inr (.inl (hreset.trans h)))
  all_goals
    rw [ht] at h
    cases h

/-- The step runs `update_intr`. -/
def RunsUpdateIntr (e : Step Spi Op Obs) : Prop := e.input = .updateIntr

/-- `transmit` wakes from its sleep and takes the fifth available word of `tx_fifo`. -/
def TakesFifth (e : Step Spi Op Obs) : Prop :=
  e.input = .transmit ∧ e.pre.transmit = .ready ∧ e.pre.txFifo.numAvailable = 5 ∧ e.pre.reg.cr1 &&& 0x2 ≠ 0

/-- The fifth word was taken since `update_intr` last ran. -/
def LevelMissed (tr : List (Step Spi Op Obs)) : Prop := Latched TakesFifth RunsUpdateIntr tr

/-- Where no run of `update_intr` is due, RIS bit 3 shows the level of `tx_fifo` iff `LevelMissed` does not
hold, and all else is shown; where it holds, the frame whose word was taken is still in flight. -/
structure IntrInv (tr : List (Step Spi Op Obs)) (s : Spi) : Prop where
  settling : s.rxFifo.numWritten ≠ 0 → s.transmit = .settling
  written : s.txFifo.numWritten ≠ 0 → s.possibleIntrEvent = true
  others : ¬ s.IntrDue → s.ShowsOthers
  shows : ¬ s.IntrDue → (s.ShowsTx ↔ ¬ LevelMissed tr)
  flight : ¬ s.IntrDue → LevelMissed tr →
    (∃ f d, s.transmit = .inPeri f d) ∨ ∃ f wake, s.transmit = .shifting f wake

namespace IntrInv

theorem init (reg : SpiRegs) : IntrInv [] (powerUp reg) :=
  ⟨fun h => absurd rfl h, fun h => absurd rfl h, fun h => absurd (.inr (.inr (.inl rfl))) h,
    fun h => absurd (.inr (.inr (.inl rfl))) h, fun _ h => absurd h not_latched_nil⟩

theorem levelMissed_snoc {e : Step Spi Op Obs} (hr : ¬ RunsUpdateIntr e) (ht : ¬ TakesFifth e) :
    LevelMissed (tr ++ [e]) ↔ LevelMissed tr := latched_keep ht hr

/-- A step after which a run of `update_intr` is due. -/
theorem due (hd : s'.IntrDue) (hset : s'.rxFifo.numWritten ≠ 0 → s'.transmit = .settling)
    (hw : s'.txFifo.numWritten ≠ 0 → s'.possibleIntrEvent = true) : IntrInv tr s' :=
  ⟨hset, hw, fun h => absurd hd h, fun h => absurd hd h, fun h => absurd hd h⟩

/-- A step that touches neither the registers nor the levels. -/
theorem congr {e : Step Spi Op Obs} (hs : IntrInv tr s) (hr : ¬ RunsUpdateIntr e) (ht : ¬ TakesFifth e)
    (hris : s'.reg.ris = s.reg.ris) (hmis : s'.reg.mis = s.reg.mis) (himsc : s'.reg.imsc = s.reg.imsc)
    (hnext : s'.intrNext = s.intrNext) (htx : s'.txFifo = s.txFifo) (hrx : s'.rxFifo = s.rxFifo)
    (hev : s'.possibleIntrEvent = s.possibleIntrEvent) (htr : s'.transmit = s.transmit)
    (hd : s.IntrDue → s'.IntrDue) : IntrInv (tr ++ [e]) s' := by
  refine ⟨?_, ?_, ?_, ?_, ?_⟩
  · rw [hrx, htr]
    exact hs.settling
  · rw [htx, hev]
    exact hs.written
  · intro hnd
    exact (hs.others fun h => hnd (hd h)).congr hris hmis himsc hnext (by rw [hrx])
  · intro hnd
    rw [levelMissed_snoc hr ht, ShowsTx.congr hris (by rw [htx])]
    exact hs.shows fun h => hnd (hd h)
  · intro hnd
    rw [levelMissed_snoc hr ht, htr]
    exact hs.flight fun h => hnd (hd h)

theorem bus {t : Payload} {d : Nat} (h : BusMove s s' o) (hs : IntrInv tr s) :
    IntrInv (tr ++ [⟨s, .transport t d, s', o⟩]) s' := by
  have hr : ¬ RunsUpdateIntr ⟨s, .transport t d, s', o⟩ := fun h => by cases h
  have ht : ¬ TakesFifth ⟨s, .transport t d, s', o⟩ := fun h => by cases h.1
  cases h with
  | plain reg cr1 sr imsc ris mis ho => exact hs.congr hr ht ris mis imsc rfl rfl rfl rfl rfl id
  | enable v => exact hs.congr hr ht rfl rfl rfl rfl rfl rfl rfl rfl id
  | accept v tx htx => exact due (.inl rfl) hs.settling fun _ => rfl
  | request reg cr1 sr ho => exact due (.inl rfl) hs.settling fun _ => rfl
  | pop w data rx hrx =>
    refine due (.inl rfl) (fun hw => hs.settling ?_) fun _ => rfl
    rwa [← (ScFifo.nbRead_eq_some hrx).2.2.2]

/-- With SSE off or no word available, none is taken. -/
theorem not_takesFifth {b : Spi} (hno : s.reg.cr1 &&& 0x2 = 0 ∨ s.txFifo.numAvailable = 0) :
    ¬ TakesFifth ⟨s, op, b, o⟩ := by
  rintro ⟨-, -, h5, sse⟩
  rcases hno with h | h
  · exact sse h
  · cases h5.symm.trans h

/-- A thread that wakes from its sleep is at no point where a run of `update_intr` is due for its own sake,
and no level has been missed. -/
theorem ready (hs : IntrInv tr s) (ht : s.transmit = .ready) (hnd : ¬ s.IntrDue) : ¬ LevelMissed tr := by
  intro h
  rcases hs.flight hnd h with ⟨f, d, hf⟩ | ⟨f, wake, hf⟩
  · rw [ht] at hf
    cases hf
  · rw [ht] at hf
    cases hf

/-- The head of the loop of `transmit`, from a sleep. -/
theorem head {b : Spi} (hs : IntrInv tr s) (ht : s.transmit = .ready) (hreg : b.reg = s.reg)
    (hnext : b.intrNext = s.intrNext) (hrx : b.rxFifo = s.rxFifo)
    (hev : b.possibleIntrEvent = s.possibleIntrEvent) (hready : b.updateIntrReady = s.updateIntrReady)
    (hreset : b.handleResetReady = s.handleResetReady)
    (hw : b.txFifo.numWritten = s.txFifo.numWritten)
    (hav : b.txFifo.numAvailable = s.txFifo.numAvailable ∧
        (s.reg.cr1 &&& 0x2 = 0 ∨ s.txFifo.numAvailable = 0) ∨
      s.txFifo.numAvailable = b.txFifo.numAvailable + 1 ∧ s.reg.cr1 &&& 0x2 ≠ 0 ∧
        ∃ f d, b.transmit = .inPeri f d) :
    IntrInv (tr ++ [⟨s, .transmit, b, o⟩]) b := by
  have hsettling : b.rxFifo.numWritten ≠ 0 → b.transmit = .settling := by
    rw [hrx]
    intro h
    have hst := hs.settling h
    rw [ht] at hst
    cases hst
  refine ⟨hsettling, by rw [hw, hev]; exact hs.written, ?_, ?_, ?_⟩
  · intro hnd
    have hnd' : ¬ s.IntrDue := fun h => hnd (IntrDue.of_ready ht h hev hready hreset)
    exact (hs.others hnd').congr (by rw [hreg]) (by rw [hreg]) (by rw [hreg]) hnext (by rw [hrx])
  · intro hnd
    have hnd' : ¬ s.IntrDue := fun h => hnd (IntrDue.of_ready ht h hev hready hreset)
    have hno := hs.ready ht hnd'
    have hsl : s.reg.ris.toNat.testBit 3 = _ := (hs.shows hnd').2 hno
    have hfifth : TakesFifth ⟨s, .transmit, b, o⟩ ↔ ¬ (s.txFifo.numAvailable ≤ 4 ↔ b.txFifo.numAvailable ≤ 4) := by
      rcases hav with ⟨heq, hno⟩ | ⟨heq, sse, -⟩
      · exact iff_of_false (not_takesFifth hno) (not_not.2 (by rw [heq]))
      · constructor
        · rintro ⟨-, -, h5, -⟩ h
          dsimp only at h5
          omega
        · intro h
          exact ⟨rfl, ht, by dsimp only; omega, sse⟩
    rw [LevelMissed, latched_snoc, or_iff_left fun h => hno h.1, hfifth, not_not, ShowsTx, hreg, hsl]
    exact decide_eq_decide
  · intro hnd hm
    have hnd' : ¬ s.IntrDue := fun h => hnd (IntrDue.of_ready ht h hev hready hreset)
    rcases latched_snoc.1 hm with h5 | ⟨h, -⟩
    · rcases hav with ⟨-, hno⟩ | ⟨-, -, hf⟩
      · exact absurd h5 (not_takesFifth hno)
      · exact .inl hf
    · exact absurd h (hs.ready ht hnd')

/-- A delta cycle at whose end nothing is due: it changes no level. -/
theorem delta (idle : s.Idle) (hs : IntrInv tr s) :
    IntrInv (tr ++ [⟨s, .delta, s.deltaCycle, []⟩]) s.deltaCycle := by
  have hr : ¬ RunsUpdateIntr ⟨s, .delta, s.deltaCycle, []⟩ := fun h => by cases h
  have ht : ¬ TakesFifth ⟨s, .delta, s.deltaCycle, []⟩ := fun h => by cases h.1
  have hcases : s.deltaCycle.IntrDue ∨ ¬ s.IntrDue ∧ s.transmit ≠ .settling ∧ s.possibleIntrEvent = false := by
    obtain ⟨hrun, hready, -, hreset⟩ := idle
    by_cases hev : s.possibleIntrEvent = true
    · exact .inl (.inr (.inl hev))
    by_cases hst : s.transmit = .settling
    · refine .inl (.inr (.inr (.inr (.inr (.inl ?_)))))
      show s.transmit.delta _ _ = _
      rw [hst]
      rfl
    refine .inr ⟨?_, hst, Bool.eq_false_iff.2 hev⟩
    rintro (h | h | h | h | h | ⟨f, h⟩)
    · exact hev h
    · rw [hready] at h
      cases h
    · rw [hreset] at h
      cases h
    · exact hst h
    · rw [h] at hrun
      cases hrun
    · rw [h] at hrun
      cases hrun
  rcases hcases with hd | ⟨hnd, hst, hev⟩
  · exact due hd (fun h => absurd rfl h) fun h => absurd rfl h
  have hrx : s.rxFifo.update.numAvailable = s.rxFifo.numAvailable := by
    rw [ScFifo.numAvailable_update, ScFifo.length_eq_numAvailable]
    by_contra hne
    exact hst (hs.settling hne)
  have htx : s.txFifo.update.numAvailable = s.txFifo.numAvailable := by
    rw [ScFifo.numAvailable_update, ScFifo.length_eq_numAvailable]
    by_contra hne
    rw [hs.written hne] at hev
    cases hev
  refine ⟨fun h => absurd rfl h, fun h => absurd rfl h, ?_, ?_, ?_⟩
  · exact fun _ => (hs.others hnd).congr rfl rfl rfl rfl hrx
  · intro _
    rw [levelMissed_snoc hr ht]
    refine Iff.trans ?_ (hs.shows hnd)
    exact ShowsTx.congr rfl htx
  · intro hnd' hm
    rcases hs.flight hnd ((levelMissed_snoc hr ht).1 hm) with ⟨f, d, hf⟩ | ⟨f, wake, hf⟩
    · refine .inl ⟨f, d, ?_⟩
      show s.transmit.delta _ _ = _
      rw [hf]
      rfl
    · have hdelta : s.deltaCycle.transmit = if wake ≤ s.now then .shifted f else .shifting f wake := by
        show s.transmit.delta _ _ = _
        rw [hf]
        rfl
      by_cases hwake : wake ≤ s.now
      · rw [if_pos hwake] at hdelta
        exact absurd (.inr (.inr (.inr (.inr (.inr ⟨f, hdelta⟩))))) hnd'
      · rw [if_neg hwake] at hdelta
        exact .inr ⟨f, wake, hdelta⟩

/-- The return of the peripheral. -/
theorem reply {f : Frame} {d : Nat} {r : UInt16} {delay : Nat} (hs : IntrInv tr s)
    (peri : s.transmit = .inPeri f d) : IntrInv (tr ++ [⟨s, .periReturn r delay,
      { s with transmit := .shifting { f with dataBuffer := r } (s.now + delay) }, [.replied r]⟩])
      { s with transmit := .shifting { f with dataBuffer := r } (s.now + delay) } := by
  have hr : ¬ RunsUpdateIntr ⟨s, .periReturn r delay,
    { s with transmit := .shifting { f with dataBuffer := r } (s.now + delay) }, [.replied r]⟩ :=
    fun h => by cases h
  have ht : ¬ TakesFifth ⟨s, .periReturn r delay,
    { s with transmit := .shifting { f with dataBuffer := r } (s.now + delay) }, [.replied r]⟩ :=
    fun h => by cases h.1
  have hd : s.IntrDue →
      { s with transmit := .shifting { f with dataBuffer := r } (s.now + delay) }.IntrDue := by
    rintro (h | h | h | h | h | ⟨g, h⟩)
    · exact .inl h
    · exact .inr (.inl h)
    · exact .inr (.inr (.inl h))
    all_goals
      rw [peri] at h
      cases h
  refine ⟨fun h => ?_, hs.written, fun hnd => ?_, fun hnd => ?_, fun _ _ => .inr ⟨_, _, rfl⟩⟩
  · have hst := hs.settling h
    rw [peri] at hst
    cases hst
  · exact (hs.others fun h => hnd (hd h)).congr rfl rfl rfl rfl rfl
  · rw [levelMissed_snoc hr ht]
    refine Iff.trans ?_ (hs.shows fun h => hnd (hd h))
    exact ShowsTx.congr rfl rfl

theorem step (h : Move s op s' o) (hs : IntrInv tr s) : IntrInv (tr ++ [⟨s, op, s', o⟩]) s' := by
  have notSettling : s.transmit ≠ .settling → ∀ {b : Spi}, b.rxFifo.numWritten = s.rxFifo.numWritten →
      b.rxFifo.numWritten ≠ 0 → b.transmit = .settling :=
    fun hst _ he hw => absurd (hs.settling (he ▸ hw)) hst
  cases h with
  | bus t d h => exact hs.bus h
  | reply f d r delay peri => exact hs.reply peri
  | resetNeg => exact due (.inr (.inr (.inl rfl))) hs.settling hs.written
  | sleep intr head hno =>
    rcases head with ⟨ht, rfl⟩ | ⟨ht, rfl⟩
    · exact hs.head ht rfl rfl rfl rfl rfl rfl rfl (.inl ⟨rfl, hno⟩)
    · exact due (.inl rfl) (notSettling (by rw [ht]; simp) rfl) fun _ => rfl
  | hand intr head w tx sse htx =>
    rcases head with ⟨ht, rfl⟩ | ⟨ht, rfl⟩
    · exact hs.head ht rfl rfl rfl rfl rfl rfl (ScFifo.nbRead_eq_some htx).2.2.2
        (.inr ⟨ScFifo.numAvailable_of_nbRead htx, sse, _, _, rfl⟩)
    · exact due (.inl rfl) (notSettling (by rw [ht]; simp) rfl) fun _ => rfl
  | store | drop => exact due (.inr (.inr (.inr (.inl rfl)))) (fun _ => rfl) hs.written
  | updateIntr ready =>
    have hno : ¬ LevelMissed (tr ++ [⟨s, .updateIntr, { s with updateIntrReady := false }.updateIntr, []⟩]) :=
      not_latched_of_clears (fun h => by cases h.1) rfl
    exact ⟨hs.settling, hs.written, fun _ => (shows_updateIntr _).2,
      fun _ => iff_of_true (shows_updateIntr _).1 hno, fun _ h => absurd h hno⟩
  | updateStatusReg ready =>
    exact hs.congr (fun h => by cases h) (fun h => by cases h.1) rfl rfl rfl rfl rfl rfl rfl rfl id
  | handleReset ready =>
    refine due (.inl rfl) (fun hw => hs.settling ?_) fun _ => rfl
    rwa [← s.rxFifo.drain_spec.2.2.2.1]
  | delta idle => exact hs.delta idle
  | advance time settled later hno =>
    exact hs.congr (fun h => by cases h) (fun h => by cases h.1) rfl rfl rfl rfl rfl rfl rfl rfl id
  | wake f wake shifting settled later =>
    exact due (.inr (.inr (.inr (.inr (.inr ⟨f, rfl⟩))))) (notSettling (by rw [shifting]; simp) rfl) hs.written

theorem of_run {reg : SpiRegs} {is : List Op} (h : Run (traced machine) (powerUp reg) is tr s) :
    IntrInv tr s :=
  h.trace IntrInv (init reg) fun _ _ _ _ _ hi hs => hs.step (machine_move hi)

end IntrInv

theorem testBit_and_mask (v : UInt16) {i : Nat} (hi : i < 4) :
    (v &&& 0xf).toNat.testBit i = v.toNat.testBit i := by
  have hmask : ∀ i < 4, (0xf : UInt16).toNat.testBit i = true := by decide
  rw [UInt16.toNat_and, Nat.testBit_and, hmask i hi, Bool.and_true]

end Spi

open Spi

/-- What the interrupt registers of the SPI controller show. In a settled state of a run, whether a frame is
being shifted or not, reads of RIS and MIS show the levels of the FIFOs and RIS masked by IMSC, and `intr` is
high iff MIS is not zero, iff since `update_intr` last ran `transmit` has not woken from its sleep and taken
the fifth available word of `tx_fifo`. -/
theorem spi_intr_accurate_iff (reg : SpiRegs) (is : List Op) (tr : List (Step Spi Op Obs)) (s : Spi)
    (hrun : Run (traced machine) (powerUp reg) is tr s) (hsettled : s.Settled) :
    (((s.readReg 0x18).2.1.toNat.testBit 3 = true ↔ s.txFifo.contents.length ≤ 4) ∧
      ((s.readReg 0x18).2.1.toNat.testBit 2 = true ↔ 4 ≤ s.rxFifo.contents.length) ∧
      (s.readReg 0x1c).2.1 = (s.readReg 0x18).2.1 &&& (s.readReg 0x14).2.1 ∧
      (s.intr = true ↔ (s.readReg 0x1c).2.1 ≠ 0)) ↔
    ¬ LevelMissed tr := by
  have hs := IntrInv.of_run hrun
  have hnd := not_intrDue hsettled
  have ho := hs.others hnd
  obtain ⟨-, -, -, -, -, hline, -, hrx, -, htx⟩ := hsettled
  rw [← hs.shows hnd, ShowsTx, ← ScFifo.length_eq_numAvailable htx]
  show ((s.reg.ris &&& 0xf).toNat.testBit 3 = true ↔ _) ∧ ((s.reg.ris &&& 0xf).toNat.testBit 2 = true ↔ _) ∧
    s.reg.mis &&& 0xf = s.reg.ris &&& 0xf &&& (s.reg.imsc &&& 0xf) ∧
      (s.intr = true ↔ s.reg.mis &&& 0xf ≠ 0) ↔ _
  rw [testBit_and_mask _ (by decide), testBit_and_mask _ (by decide)]
  constructor
  · rintro ⟨h3, -⟩
    exact Bool.eq_iff_iff.2 (h3.trans decide_eq_true_iff.symm)
  · intro h3
    refine ⟨by rw [h3, decide_eq_true_iff], ?_, ?_, ?_⟩
    · rw [ho.rx, decide_eq_true_iff, ScFifo.length_eq_numAvailable hrx]
    · rw [ho.mis]
      ac_rfl
    · rw [hline, ho.intr, decide_eq_true_iff]

/-- Five words queued with SSE off and `update_intr` run; then SSE is set and a frame begins. -/
def fifthTaken : List Op :=
  [.handleReset, .transmit,
    .transport ⟨.write, 0x08, some [0x01, 0x00], 2, .incomplete, false⟩ 0,
    .transport ⟨.write, 0x08, some [0x02, 0x00], 2, .incomplete, false⟩ 0,
    .transport ⟨.write, 0x08, some [0x03, 0x00], 2, .incomplete, false⟩ 0,
    .transport ⟨.write, 0x08, some [0x04, 0x00], 2, .incomplete, false⟩ 0,
    .transport ⟨.write, 0x08, some [0x05, 0x00], 2, .incomplete, false⟩ 0,
    .delta, .updateIntr, .updateStatusReg, .transmit, .delta, .updateStatusReg,
    .transport ⟨.write, 0x04, some [0x02, 0x00], 2, .incomplete, false⟩ 0, .delta, .transmit,
    .periReturn 0xAB 20000, .delta, .updateStatusReg, .delta]

theorem run_fifthTaken : ∃ tr s, Run (traced machine) (powerUp default) fifthTaken tr s ∧ s.Settled ∧
    s.reg.ris = 0 ∧ s.txFifo.contents.length = 4 := by
  have hx : (exec (traced machine) (powerUp default) fifthTaken).map (fun r =>
      (decide r.1.Settled, r.1.reg.ris, r.1.txFifo.contents.length)) = some (true, 0, 4) := by decide +kernel
  obtain ⟨⟨s, tr⟩, he, hs⟩ := Option.map_eq_some_iff.1 hx
  simp only [Prod.mk.injEq, decide_eq_true_iff] at hs
  exact ⟨tr, s, Run.of_exec he, hs⟩

theorem spi_intr_accurate_iff_fifthTaken : ∃ tr s,
    Run (traced machine) (powerUp default) fifthTaken tr s ∧ s.Settled ∧ LevelMissed tr := by
  obtain ⟨tr, s, hrun, hset, hris, hlen⟩ := run_fifthTaken
  refine ⟨tr, s, hrun, hset, not_not.1 fun hno => ?_⟩
  -- RIS bit 3 is clear with four words in `tx_fifo`
  have hbit := ((spi_intr_accurate_iff _ fifthTaken tr s hrun hset).2 hno).1.2 hlen.le
  rw [show (s.readReg 0x18).2.1 = s.reg.ris &&& 0xf from rfl, hris] at hbit
  exact absurd hbit (by decide)

/-- While the frame of the fifth word is shifted, four words are left and RIS bit 3 is clear. -/
theorem not_intr_accurate_fifthTaken :
    ¬ ∀ (reg : SpiRegs) (is : List Op) (os : List Obs) (s : Spi),
      Run machine (powerUp reg) is os s → s.Settled →
        ((s.readReg 0x18).2.1.toNat.testBit 3 = true ↔ s.txFifo.contents.length ≤ 4) ∧
        ((s.readReg 0x18).2.1.toNat.testBit 2 = true ↔ 4 ≤ s.rxFifo.contents.length) ∧
        (s.readReg 0x1c).2.1 = (s.readReg 0x18).2.1 &&& (s.readReg 0x14).2.1 ∧
        (s.intr = true ↔ (s.readReg 0x1c).2.1 ≠ 0) := by
  intro h
  obtain ⟨tr, s, hrun, hset, hris, hlen⟩ := run_fifthTaken
  have hbit := (h _ _ _ s hrun.of_traced hset).1.2 hlen.le
  rw [show (s.readReg 0x18).2.1 = s.reg.ris &&& 0xf from rfl, hris] at hbit
  exact absurd hbit (by decide)

end CdcVp
