import CdcVp.SpiEvents
import CdcVp.SpiStatus

/-!
# Polling SR

An initiator that runs ahead of the kernel acts on SR as it last computed it. TNF never promises too much:
only a write of DR takes a free place, and it computes SR. A read of DR leaves SR as it is for a delta cycle,
and from the read of the last available word on RNE promises one too many. `Refreshes` are the steps after
which it no longer does.
-/

namespace CdcVp
open FlatStore LittleEndian Runs

namespace Spi
variable {s s' : Spi} {op : Op} {o : List Obs} {tr : List (Step Spi Op Obs)} {reg : SpiRegs}

/-! ### The promises of SR -/

/-- A read of DR takes the last available word while SR shows one. -/
def TakesLast (e : Step Spi Op Obs) : Prop :=
  (∃ w data, .popped w data ∈ e.obs) ∧ e.pre.rxFifo.numAvailable = 1 ∧ e.pre.reg.sr.toNat.testBit 2 = true

/-- The step computes SR, or makes words available. -/
def Refreshes (e : Step Spi Op Obs) : Prop :=
  ComputesSr e ∨ e.input = .delta ∧ e.pre.rxFifo.contents ≠ []

/-- SR shows a word and none is available. -/
def OverPromises (s : Spi) : Prop := s.reg.sr.toNat.testBit 2 = true ∧ s.rxFifo.numAvailable = 0

/-- No step has computed SR: it is what it was at power-up. -/
def Uncomputed (tr : List (Step Spi Op Obs)) : Prop := ∀ e ∈ tr, ¬ ComputesSr e

/-- RNE promises too much after the last available word was taken, or before the reset at start-up; TNF never
does. -/
structure PollInv (reg : SpiRegs) (tr : List (Step Spi Op Obs)) (s : Spi) : Prop where
  rne : s.OverPromises ↔ Latched TakesLast Refreshes tr ∨ Uncomputed tr ∧ reg.sr.toNat.testBit 2 = true
  start : Uncomputed tr → s.handleResetReady = true ∧ s.rxFifo.numAvailable = 0 ∧ s.reg.sr = reg.sr
  tnf : s.reg.sr.toNat.testBit 1 = true → s.txFifo.numFree ≠ 0

namespace PollInv

theorem init (reg : SpiRegs) : PollInv reg [] (powerUp reg) := by
  refine ⟨⟨fun h => .inr ⟨List.forall_mem_nil _, h.1⟩, ?_⟩, fun _ => ⟨rfl, rfl, rfl⟩, ?_⟩
  · rintro (h | ⟨-, h⟩)
    · exact absurd h not_latched_nil
    · exact ⟨h, rfl⟩
  · intro _
    show (ScFifo.empty : ScFifo Word fifoSize).numFree ≠ 0
    decide

theorem uncomputed_snoc {e : Step Spi Op Obs} : Uncomputed (tr ++ [e]) ↔ Uncomputed tr ∧ ¬ ComputesSr e := by
  rw [Uncomputed, List.forall_mem_append, List.forall_mem_singleton]
  rfl

/-- A step that computes SR. -/
theorem computed {e : Step Spi Op Obs} (hc : ComputesSr e) (ht : ¬ TakesLast e) (hs : s'.ShowsCounts) :
    PollInv reg (tr ++ [e]) s' := by
  have hno : ¬ Uncomputed (tr ++ [e]) := fun h => (uncomputed_snoc.1 h).2 hc
  refine ⟨iff_of_false ?_ ?_, fun h => absurd h hno, fun h => ?_⟩
  · rintro ⟨h, hav⟩
    rw [hs.rne] at h
    exact of_decide_eq_true h hav
  · rintro (h | ⟨h, -⟩)
    · exact not_latched_of_clears ht (.inl hc) h
    · exact hno h
  · rw [hs.tnf] at h
    exact of_decide_eq_true h

/-- A step that leaves SR and what RNE is about, and takes no place of `tx_fifo`. -/
theorem congr {e : Step Spi Op Obs} (hs : PollInv reg tr s) (hc : ¬ Refreshes e) (ht : ¬ TakesLast e)
    (hsr : s'.reg.sr = s.reg.sr) (hav : s'.rxFifo.numAvailable = s.rxFifo.numAvailable)
    (hfree : s.txFifo.numFree ≠ 0 → s'.txFifo.numFree ≠ 0)
    (hready : s.handleResetReady = true → s'.handleResetReady = true) : PollInv reg (tr ++ [e]) s' := by
  have hu : Uncomputed (tr ++ [e]) ↔ Uncomputed tr :=
    uncomputed_snoc.trans (and_iff_left fun h => hc (.inl h))
  have hl : Latched TakesLast Refreshes (tr ++ [e]) ↔ Latched TakesLast Refreshes tr :=
    latched_keep ht hc
  refine ⟨?_, ?_, ?_⟩
  · rw [OverPromises, hsr, hav, hl, hu]
    exact hs.rne
  · rw [hu, hav, hsr]
    exact fun h => ⟨hready (hs.start h).1, (hs.start h).2⟩
  · rw [hsr]
    exact fun h => hfree (hs.tnf h)

/-- A read of DR. -/
theorem pop {t : Payload} {d : Nat} {w : Word} {data : UInt16} {rx : ScFifo Word fifoSize}
    (hs : PollInv reg tr s) (hrx : s.rxFifo.nbRead = some (w, rx)) :
    PollInv reg (tr ++ [⟨s, .transport t d,
      { s with rxFifo := rx, possibleIntrEvent := true, statusEvent := true }, [.popped w data]⟩])
      { s with rxFifo := rx, possibleIntrEvent := true, statusEvent := true } := by
  have hav := ScFifo.numAvailable_of_nbRead hrx
  have hne : s.rxFifo.numAvailable ≠ 0 := by
    rw [hav]
    exact Nat.succ_ne_zero _
  have hlast : s.rxFifo.numAvailable = 1 ↔ rx.numAvailable = 0 := by
    rw [hav]
    exact Nat.add_eq_right
  have hold : ¬ (Latched TakesLast Refreshes tr ∨ Uncomputed tr ∧ reg.sr.toNat.testBit 2 = true) :=
    fun h => hne (hs.rne.2 h).2
  have hu : ¬ Uncomputed tr := fun h => hne (hs.start h).2.1
  refine ⟨?_, fun h => absurd (uncomputed_snoc.1 h).1 hu, hs.tnf⟩
  rw [latched_snoc]
  constructor
  · rintro ⟨hrne, h0⟩
    exact .inl (.inl ⟨⟨w, data, List.mem_singleton_self _⟩, hlast.2 h0, hrne⟩)
  · rintro ((h | ⟨h, -⟩) | ⟨h, -⟩)
    · exact ⟨h.2.2, hlast.1 h.2.1⟩
    · exact absurd (.inl h) hold
    · exact absurd (uncomputed_snoc.1 h).1 hu

/-- The end of a delta cycle; `handle_reset` has run before the first. -/
theorem delta (idle : s.Idle) (hs : PollInv reg tr s) :
    PollInv reg (tr ++ [⟨s, .delta, s.deltaCycle, []⟩]) s.deltaCycle := by
  have hu : ¬ Uncomputed tr := by
    intro h
    have hr := (hs.start h).1
    rw [idle.2.2.2] at hr
    cases hr
  have hu' : ¬ Uncomputed (tr ++ [⟨s, .delta, s.deltaCycle, []⟩]) := fun h => hu (uncomputed_snoc.1 h).1
  have ht : ¬ TakesLast ⟨s, .delta, s.deltaCycle, []⟩ := by
    rintro ⟨⟨w, data, h⟩, -⟩
    exact absurd h List.not_mem_nil
  have hrne := hs.rne.trans (or_iff_left fun h => hu h.1)
  refine ⟨?_, fun h => absurd h hu', fun h h0 => ?_⟩
  · refine Iff.trans ?_ (or_iff_left fun h => hu' h.1).symm
    rw [latched_snoc, or_iff_right ht, ← hrne]
    constructor
    · rintro ⟨hsr, hav⟩
      have h0 : s.rxFifo.numAvailable = 0 := Nat.eq_zero_of_le_zero (hav ▸ s.rxFifo.numAvailable_le_update)
      refine ⟨⟨hsr, h0⟩, ?_⟩
      rintro ((h | h | ⟨w, hw⟩) | ⟨-, h⟩)
      · cases h
      · cases h
      · exact absurd hw List.not_mem_nil
      · exact h (List.eq_nil_of_length_eq_zero hav)
    · rintro ⟨⟨hsr, -⟩, hno⟩
      exact ⟨hsr, List.length_eq_zero_iff.2 (not_not.1 fun h => hno (.inr ⟨rfl, h⟩))⟩
  · exact hs.tnf h (Nat.eq_zero_of_le_zero (h0 ▸ s.txFifo.numFree_le_update))

theorem not_refreshes (hop : op ≠ .updateStatusReg ∧ op ≠ .handleReset ∧ op ≠ .delta)
    (ho : ∀ w, .accepted w ∉ o) : ¬ Refreshes ⟨s, op, s', o⟩ := by
  rintro ((h | h | ⟨w, hw⟩) | ⟨h, -⟩)
  · exact hop.1 h
  · exact hop.2.1 h
  · exact ho w hw
  · exact hop.2.2 h

theorem not_takesLast (ho : ∀ w data, .popped w data ∉ o) : ¬ TakesLast ⟨s, op, s', o⟩ := by
  rintro ⟨⟨w, data, hw⟩, -⟩
  exact ho w data hw

theorem bus {t : Payload} {d : Nat} (h : BusMove s s' o) (hs : PollInv reg tr s) :
    PollInv reg (tr ++ [⟨s, .transport t d, s', o⟩]) s' := by
  have warnings : (∀ e ∈ o, ∃ text, e = .warning text) →
      ¬ Refreshes ⟨s, .transport t d, s', o⟩ ∧ ¬ TakesLast ⟨s, .transport t d, s', o⟩ := by
    intro ho
    refine ⟨not_refreshes (by simp) (StatusInv.not_accepted ho), not_takesLast fun w data hw => ?_⟩
    obtain ⟨text, h⟩ := ho _ hw
    cases h
  cases h with
  | plain reg cr1 sr imsc ris mis ho => exact hs.congr (warnings ho).1 (warnings ho).2 sr rfl id id
  | request reg cr1 sr ho => exact hs.congr (warnings ho).1 (warnings ho).2 sr rfl id id
  | enable v => exact hs.congr (not_refreshes (by simp) (by simp)) (not_takesLast (by simp)) rfl rfl id id
  | accept v tx htx =>
    exact computed (.inr (.inr ⟨_, List.mem_singleton_self _⟩)) (not_takesLast (by simp))
      (showsCounts_updateStatusReg _)
  | pop w data rx hrx => exact hs.pop hrx

theorem step (h : Move s op s' o) (hs : PollInv reg tr s) : PollInv reg (tr ++ [⟨s, op, s', o⟩]) s' := by
  cases h with
  | bus t d h => exact hs.bus h
  | reply | updateIntr | advance | sleep | drop | wake =>
    exact hs.congr (not_refreshes (by simp) (by simp)) (not_takesLast (by simp)) rfl rfl id id
  | resetNeg =>
    exact hs.congr (not_refreshes (by simp) (by simp)) (not_takesLast (by simp)) rfl rfl id fun _ => rfl
  | hand intr head w tx sse htx =>
    refine hs.congr (not_refreshes (by simp) (by simp)) (not_takesLast (by simp)) rfl rfl (fun h => ?_) id
    rwa [ScFifo.numFree_of_nbRead htx]
  | store f shifted rx hrx =>
    exact hs.congr (not_refreshes (by simp) (by simp)) (not_takesLast (by simp)) rfl
      (ScFifo.numAvailable_of_nbWrite hrx) id id
  | updateStatusReg ready =>
    exact computed (.inl rfl) (not_takesLast (by simp)) (showsCounts_updateStatusReg _)
  | handleReset ready =>
    exact computed (.inr (.inl rfl)) (not_takesLast (by simp)) (showsCounts_updateStatusReg _)
  | delta idle => exact hs.delta idle

theorem of_run {is : List Op} (h : Run (traced machine) (powerUp reg) is tr s) : PollInv reg tr s :=
  h.trace (PollInv reg) (init reg) fun _ _ _ _ _ hi hs => hs.step (machine_move hi)

end PollInv

/-- A read of SR that returns RNE set is right for an immediately following read of DR, and one that returns
TNF set for an immediately following write of DR. -/
def PollsTrue (s : Spi) : Prop :=
  ∀ (t t' : Payload) (d d' : Nat) (s₁ : Spi) (o₁ : List Obs), t.command = .read → t.address = 0x0c →
    s.bTransport t d = some (s₁, .returned t' d', o₁) →
    (t'.data.testBit 2 = true → ∀ (u u' : Payload) (e e' : Nat) (s₂ : Spi) (o₂ : List Obs),
      u.command = .read → u.address = 0x08 → s₁.bTransport u e = some (s₂, .returned u' e', o₂) →
      (∃ w data, o₂ = [.popped w data]) ∧ s₂.reg.ris = s₁.reg.ris) ∧
    (t'.data.testBit 1 = true → ∀ (u u' : Payload) (e e' : Nat) (s₂ : Spi) (o₂ : List Obs),
      u.command = .write → u.address.toUInt8 = 0x08 → s₁.bTransport u e = some (s₂, .returned u' e', o₂) →
      u'.responseStatus = .ok)

theorem readDr_pops (h : s.rxFifo.numAvailable ≠ 0) :
    (∃ w data, s.readDr.2.2 = [.popped w data]) ∧ s.readDr.1.reg.ris = s.reg.ris := by
  unfold readDr
  split
  · rename_i hn
    exact absurd (ScFifo.nbRead_eq_none.1 hn) h
  · exact ⟨⟨_, _, rfl⟩, rfl⟩

theorem writeDr_ok {v : UInt16} {ok : Bool} (h : s.txFifo.numFree ≠ 0)
    (hw : s.writeReg 0x08 v = (s', ok, o)) : ok = true := by
  obtain ⟨tx, htx⟩ := ScFifo.exists_nbWrite h ⟨v, s.epoch⟩
  rw [writeReg, if_neg (by decide), if_neg (by decide), if_pos rfl] at hw
  dsimp only at hw
  rw [htx] at hw
  cases hw
  rfl

/-- The bits of SR that a read of it returns. -/
theorem testBit_data_readSr {t t' : Payload} {d d' : Nat} (hc : t.command = .read) (ha : t.address = 0x0c)
    (h : s.bTransport t d = some (s', .returned t' d', o)) : s' = s ∧ ∀ i < 5,
      t'.data.testBit i = (decide (i < 8 * t.dataLength.toNat) && s.reg.sr.toNat.testBit i) := by
  obtain ⟨-, data, hr, hdata⟩ := bTransport_read hc h
  rw [ha] at hr
  refine ⟨(congrArg Prod.fst hr).symm, ?_⟩
  intro i hi
  have hd : data = (s.readReg 0x0c).2.1 := (congrArg (fun r => r.2.1) hr).symm
  rw [hdata, show 256 = 2 ^ 8 from rfl, ← pow_mul, Nat.testBit_mod_two_pow, hd, testBit_readSr s hi]

theorem pollsTrue_iff (htnf : s.reg.sr.toNat.testBit 1 = true → s.txFifo.numFree ≠ 0) :
    s.PollsTrue ↔ ¬ s.OverPromises := by
  constructor
  · rintro h ⟨hrne, hav⟩
    have hsr : s.bTransport ⟨.read, 0x0c, some [0, 0], 2, .incomplete, false⟩ 0 = some (s, .returned
        ⟨.read, 0x0c, some (blit [0, 0] 0 (bytes 2 (s.reg.sr &&& 0x1f).toNat)), 2, .ok, false⟩ 20000, []) := rfl
    have hbit := (testBit_data_readSr rfl rfl hsr).2 2 (by decide)
    rw [hrne] at hbit
    have hdr : s.bTransport ⟨.read, 0x08, some [0, 0], 2, .incomplete, false⟩ 0 = some (s.readDr.1, .returned
        ⟨.read, 0x08, some (blit [0, 0] 0 (bytes 2 s.readDr.2.1.toNat)), 2, .ok, false⟩ 20000,
        s.readDr.2.2) := rfl
    obtain ⟨⟨w, data, hpop⟩, -⟩ := (h _ _ _ _ _ _ rfl rfl hsr).1 hbit _ _ _ _ _ _ rfl rfl hdr
    rw [readDr, ScFifo.nbRead_eq_none.2 hav] at hpop
    cases hpop
  · intro hno t t' d d' s₁ o₁ hc ha ht
    obtain ⟨rfl, hbits⟩ := testBit_data_readSr hc ha ht
    refine ⟨fun hrne u u' e e' s₂ o₂ huc hua hu => ?_, fun hset u u' e e' s₂ o₂ huc hua hu => ?_⟩
    · rw [hbits 2 (by decide), Bool.and_eq_true] at hrne
      obtain ⟨hpop, hris⟩ := readDr_pops fun hav => hno ⟨hrne.2, hav⟩
      obtain ⟨-, data, hr, -⟩ := bTransport_read huc hu
      rw [hua] at hr
      have hdr : s₁.readDr = (s₂, data, o₂) := hr
      rw [hdr] at hpop hris
      exact ⟨hpop, hris⟩
    · rw [hbits 1 (by decide), Bool.and_eq_true] at hset
      obtain ⟨v, ok, hw, hstatus⟩ := bTransport_write huc hu
      rw [hua] at hw
      rw [hstatus, writeDr_ok (htnf hset.2) hw, if_pos rfl]

end Spi

open Spi

/-- When polling SR can be relied on. In a reachable state an SR read with RNE set is right for an immediately
following DR read, and one with TNF set for an immediately following DR write, iff no DR read has taken the
last available word with RNE shown since SR was last computed or words last became available, and SR has been
computed, or had RNE clear at power-up. -/
theorem spi_polling_iff (reg : SpiRegs) (is : List Op) (tr : List (Step Spi Op Obs)) (s : Spi)
    (hrun : Run (traced machine) (powerUp reg) is tr s) : s.PollsTrue ↔
      ¬ Latched TakesLast Refreshes tr ∧ ((∃ e ∈ tr, ComputesSr e) ∨ reg.sr.toNat.testBit 2 = false) := by
  have hs := PollInv.of_run hrun
  rw [pollsTrue_iff hs.tnf, hs.rne, not_or, not_and_or]
  refine and_congr_right' (or_congr ?_ (Bool.not_eq_true _).to_iff)
  rw [Uncomputed]
  push Not
  rfl

/-- One frame received and SR computed; then a read of DR takes the word. -/
def readLast : List Op :=
  [.handleReset, .transmit,
    .transport ⟨.write, 0x00, some [0x07, 0x00], 2, .incomplete, false⟩ 0,
    .transport ⟨.write, 0x04, some [0x02, 0x00], 2, .incomplete, false⟩ 0,
    .transport ⟨.write, 0x08, some [0x34, 0x12], 2, .incomplete, false⟩ 0,
    .delta, .updateIntr, .updateStatusReg, .transmit, .periReturn 0xAB 0, .delta, .updateStatusReg,
    .transmit, .delta, .transmit, .delta, .updateIntr, .updateStatusReg,
    .transport ⟨.read, 0x08, some [0, 0], 2, .incomplete, false⟩ 0]

theorem run_readLast : ∃ tr s, Run (traced machine) (powerUp default) readLast tr s ∧ s.OverPromises := by
  have hx : (exec (traced machine) (powerUp default) readLast).map (fun r =>
      (r.1.reg.sr, r.1.rxFifo.numAvailable)) = some (0x07, 0) := by decide +kernel
  obtain ⟨⟨s, tr⟩, he, hs⟩ := Option.map_eq_some_iff.1 hx
  obtain ⟨hsr, hav⟩ := Prod.mk.inj hs
  exact ⟨tr, s, Run.of_exec he, by rw [show s.reg.sr = 0x07 from hsr]; decide, hav⟩

theorem spi_polling_iff_readLast : ∃ tr s, Run (traced machine) (powerUp default) readLast tr s ∧
    Latched TakesLast Refreshes tr := by
  obtain ⟨tr, s, hrun, hover⟩ := run_readLast
  refine ⟨tr, s, hrun, not_not.1 fun hno => ?_⟩
  -- at power-up RNE was clear, so nothing else breaks the promise
  have htrue := (spi_polling_iff _ readLast tr s hrun).2 ⟨hno, .inr (by decide)⟩
  exact (pollsTrue_iff (PollInv.of_run hrun).tnf).1 htrue hover

/-- RNE is still set after the read, and the next read of DR finds no word. -/
theorem not_polling_readLast : ¬ ∀ (reg : SpiRegs) (is : List Op) (os : List Obs) (s : Spi),
    Run machine (powerUp reg) is os s → s.PollsTrue := by
  intro h
  obtain ⟨tr, s, hrun, hover⟩ := run_readLast
  exact (pollsTrue_iff (PollInv.of_run hrun).tnf).1 (h _ _ _ s hrun.of_traced) hover

end CdcVp
