import CdcVp.SpiData

/-!
# Where the SPI masks a word

A word is masked to a word size twice: at the end of its frame, to the size the frame began with, and at the
read of DR, to the size CR0 has by then. The word that goes out to the peripheral is not masked at all.
-/

namespace CdcVp
open FlatStore LittleEndian Runs

namespace Spi
variable {s s' : Spi} {op : Op} {o os : List Obs} {tr : List (Step Spi Op Obs)} {w : Word} {data : UInt16}

/-- The word at the front of the FIFO is below 2^(DSS + 1). -/
def FrontFits (s : Spi) (f : ScFifo Word fifoSize) : Prop :=
  ∀ w ∈ f.contents.head?, w.val.toNat < 2 ^ bitsPerFrame s.reg.cr0

instance (s : Spi) (f : ScFifo Word fifoSize) : Decidable (FrontFits s f) := by unfold FrontFits; infer_instance

/-- A step that starts a frame hands over the word at the front of `tx_fifo`, masked to the word size of CR0. -/
def HandsMasked (e : Step Spi Op Obs) : Prop :=
  ∀ w bits, .handed w bits ∈ e.obs → bits = bitsPerFrame e.pre.reg.cr0 ∧
    ∃ q ∈ e.pre.txFifo.contents.head?, w.val.toNat = q.val.toNat % 2 ^ bits

/-- A step that stores a word stores the last reply, masked to the word size of the last frame handed over. -/
def StoresMasked (os : List Obs) (e : Step Spi Op Obs) : Prop :=
  ∀ f, .ended f false ∈ e.obs → ∃ w bits reply v,
    (handed os).getLast? = some (w, bits) ∧ (replied os).getLast? = some reply ∧
    e.post.rxFifo.contents = e.pre.rxFifo.contents ++ [v] ∧ v.val.toNat = reply.toNat % 2 ^ bits

/-- Frames carry the configured word size in both directions. -/
structure CarriesWordSize (tr : List (Step Spi Op Obs)) : Prop where
  out : ∀ e ∈ tr, HandsMasked e
  stored : ∀ tr₁ e tr₂, tr = tr₁ ++ e :: tr₂ → StoresMasked (tr₁.flatMap Step.obs) e

/-! ### Out -/

theorem handsMasked_iff (h : machine s op = some (s', o)) :
    HandsMasked ⟨s, op, s', o⟩ ↔ (StartsFrame s op → FrontFits s s.txFifo) := by
  constructor
  · intro hm hs w hw
    obtain ⟨hb, q, hq, hv⟩ := hm w _ ((handed_iff h).2 ⟨hs, hw, rfl⟩)
    cases (hw : _ = _).symm.trans hq
    exact (Nat.mod_eq_iff_lt (Nat.two_pow_pos _).ne').1 hv.symm
  · intro hf w bits he
    obtain ⟨hs, hw, rfl⟩ := (handed_iff h).1 he
    exact ⟨rfl, w, hw, ((Nat.mod_eq_iff_lt (Nat.two_pow_pos _).ne').2 (hf hs w hw)).symm⟩

/-! ### In -/

theorem storesMasked_of_run {reg : SpiRegs} {is : List Op} (hrun : Run machine (powerUp reg) is os s)
    (h : machine s op = some (s', o)) : StoresMasked os ⟨s, op, s', o⟩ := by
  intro f he
  obtain ⟨shifted, hc⟩ : Effect s s' (.ended f false) := (machine_dataStep h).effect he
  obtain ⟨hbits, hrep⟩ := frames_conserved hrun
  rw [shifted] at hbits hrep
  have hsize := congrArg List.getLast? hbits
  have hreply := congrArg List.getLast? hrep
  rw [Transmit.inFlight, List.map_singleton, List.getLast?_concat, List.getLast?_map,
    Option.map_eq_some_iff] at hsize
  rw [Transmit.answered, List.map_singleton, List.getLast?_concat] at hreply
  obtain ⟨⟨w, bits⟩, hlast, rfl⟩ := hsize
  exact ⟨w, _, _, _, hlast, hreply, hc, toNat_and_frameMask _ _⟩

/-! ### Read again -/

def Obs.pop? : Obs → Option (Word × UInt16)
  | .popped w data => some (w, data)
  | _ => none

/-- The reads of DR with a word in `rx_fifo`: the word taken and the value returned. -/
def pops (os : List Obs) : List (Word × UInt16) := os.filterMap Obs.pop?

def readValues (os : List Obs) : List UInt16 := (pops os).map Prod.snd

theorem popped_eq_map (os : List Obs) : popped os = (pops os).map fun p => p.1.val := by
  rw [pops, List.map_filterMap, popped]
  congr 1
  funext e
  cases e <;> rfl

theorem mem_pops : (w, data) ∈ pops os ↔ .popped w data ∈ os := by
  rw [pops, List.mem_filterMap]
  constructor
  · rintro ⟨e, he, hp⟩
    cases e with
    | popped v d =>
      cases hp
      exact he
    | accepted | handed | replied | ended | warning => cases hp
  · exact fun h => ⟨_, h, rfl⟩

theorem and_frameMask_eq_iff (x : UInt16) (bits : Nat) : x &&& frameMask bits = x ↔ x.toNat < 2 ^ bits := by
  rw [← UInt16.toNat_inj, toNat_and_frameMask]
  exact Nat.mod_eq_iff_lt (Nat.two_pow_pos bits).ne'

/-- What the reads return is what was stored, in order, where no word was masked to fewer bits. -/
theorem readValues_prefix_iff {reg : SpiRegs} {is : List Op} (hrun : Run machine (powerUp reg) is os s)
    (hno : .resetNeg ∉ is) : readValues os <+: os.filterMap Obs.stored? ↔ ∀ p ∈ pops os, p.2 = p.1.val := by
  have hpopped : popped os <+: os.filterMap Obs.stored? := ⟨_, (words_conserved hrun hno).2⟩
  rw [popped_eq_map] at hpopped
  rw [List.prefix_iff_eq_take, ← List.map_inj_left, List.prefix_iff_eq_take.1 hpopped, readValues,
    List.length_map, List.length_map]

end Spi

open Spi

/-- When SPI frames carry the configured word size. In every run, what goes out is the queued word masked to the
word size of CR0 and what is stored is the reply masked to the word size its frame began with, iff every frame
begins with a word below 2^(DSS + 1) at the front of `tx_fifo`. The events of the steps are what happens. -/
theorem spi_frames_carry_word_size_iff (reg : SpiRegs) (is : List Op) (tr : List (Step Spi Op Obs)) (s : Spi)
    (hrun : Run (traced machine) (powerUp reg) is tr s) :
    (CarriesWordSize tr ↔ ∀ e ∈ tr, StartsFrame e.pre e.input → FrontFits e.pre e.pre.txFifo) ∧
      ∀ e ∈ tr, EventsMatch e := by
  refine ⟨⟨?_, ?_⟩, fun e he => eventsMatch (hrun.step_of_mem he)⟩
  · exact fun h e he => (handsMasked_iff (hrun.step_of_mem he)).1 (h.out e he)
  · refine fun h => ⟨fun e he => (handsMasked_iff (hrun.step_of_mem he)).2 (h e he), ?_⟩
    rintro tr₁ e tr₂ rfl
    obtain ⟨is₁, is₂, -, hpre, hstep, -⟩ := hrun.split
    exact storesMasked_of_run hpre.of_traced hstep

/-- CR0 and CR1 set, one frame out and back, CR0 set again and a read of DR. -/
def frameAndRead (cr0 word reply cr0' : UInt16) : List Op :=
  [.handleReset, .transmit, .transport (spiWrite 0x00 cr0) 0, .transport (spiWrite 0x04 0x02) 0,
    .transport (spiWrite 0x08 word) 0, .delta, .updateIntr, .updateStatusReg, .transmit, .periReturn reply 0,
    .delta, .updateStatusReg, .transmit, .delta, .transmit, .transport (spiWrite 0x00 cr0') 0,
    .transport ⟨.read, 0x08, some [0, 0], 2, .incomplete, false⟩ 0]

theorem spi_frames_carry_word_size_iff_eightBits : ∃ tr s,
    Run (traced machine) (powerUp default) (frameAndRead 7 0x34 0xABCD 7) tr s ∧ CarriesWordSize tr := by
  have hx : (exec (traced machine) (powerUp default) (frameAndRead 7 0x34 0xABCD 7)).map (fun r =>
      r.2.all fun e => decide (StartsFrame e.pre e.input → FrontFits e.pre e.pre.txFifo)) = some true := by
    decide +kernel
  obtain ⟨⟨s, tr⟩, he, hx⟩ := Option.map_eq_some_iff.1 hx
  have hrun := Run.of_exec he
  exact ⟨tr, s, hrun, (spi_frames_carry_word_size_iff default _ tr s hrun).1.2 fun e hmem =>
    of_decide_eq_true (List.all_eq_true.1 hx e hmem)⟩

/-- 0x1234 written to DR goes out in a frame of 8 bits as it is. -/
theorem not_carriesWordSize_eightBits : ¬ ∀ (reg : SpiRegs) (is : List Op) (tr : List (Step Spi Op Obs)) (s : Spi),
    Run (traced machine) (powerUp reg) is tr s → CarriesWordSize tr := by
  intro h
  have hx : (exec (traced machine) (powerUp default) (frameAndRead 7 0x1234 0xABCD 7)).map (fun r =>
      r.2.any fun e => decide (.handed ⟨0x1234, 1⟩ 8 ∈ e.obs)) = some true := by decide +kernel
  obtain ⟨⟨s, tr⟩, he, hx⟩ := Option.map_eq_some_iff.1 hx
  obtain ⟨e, hmem, hobs⟩ := List.any_eq_true.1 hx
  obtain ⟨-, q, -, hq⟩ := (h default _ tr s (Run.of_exec he)).out e hmem _ _ (of_decide_eq_true hobs)
  have hlt : q.val.toNat % 2 ^ 8 < 2 ^ 8 := Nat.mod_lt _ (by decide)
  exact absurd (hq ▸ hlt) (by decide)

/-- When received words survive reconfiguration. In every run without a falling edge of `reset`, the values read
from a non-empty `rx_fifo` are the words stored, in order, iff every such read finds a word below 2^(DSS + 1) at
the front; the words stored are the replies masked to the word sizes their frames began with. The events of the
steps are what happens. -/
theorem spi_words_survive_iff (reg : SpiRegs) (is : List Op) (tr : List (Step Spi Op Obs)) (s : Spi)
    (hrun : Run (traced machine) (powerUp reg) is tr s) (hno : .resetNeg ∉ is) :
    (readValues (tr.flatMap Step.obs) <+: (((ended (tr.flatMap Step.obs)).filter fun e => !e.2).map fun e =>
        UInt16.ofNat (e.1.dataBuffer.toNat % 2 ^ e.1.bitsPerFrame)) ↔
      ∀ e ∈ tr, ReadsDr e.input → e.pre.rxFifo.numAvailable ≠ 0 → FrontFits e.pre e.pre.rxFifo) ∧
    (∀ (k : Nat) (f : Frame) (full : Bool), (ended (tr.flatMap Step.obs))[k]? = some (f, full) →
      (∃ w, (handed (tr.flatMap Step.obs))[k]? = some (w, f.bitsPerFrame)) ∧
        (replied (tr.flatMap Step.obs))[k]? = some f.dataBuffer) ∧
    (∀ e ∈ tr, ∀ w bits, .handed w bits ∈ e.obs → bits = bitsPerFrame e.pre.reg.cr0) ∧
    ∀ e ∈ tr, EventsMatch e := by
  refine ⟨?_, fun _ _ _ => frame_of_ended hrun.of_traced, ?_, fun e he => eventsMatch (hrun.step_of_mem he)⟩
  · rw [← filterMap_stored, readValues_prefix_iff hrun.of_traced hno]
    constructor
    · intro h e he hr hav w hw
      have hm := (popped_iff (hrun.step_of_mem he)).2 ⟨hr, hav, hw, rfl⟩
      exact (and_frameMask_eq_iff _ _).1 (h (w, _) (mem_pops.2 (List.mem_flatMap.2 ⟨e, he, hm⟩)))
    · rintro h ⟨w, data⟩ hm
      obtain ⟨e, he, hm⟩ := List.mem_flatMap.1 (mem_pops.1 hm)
      obtain ⟨hr, hav, hw, rfl⟩ := (popped_iff (hrun.step_of_mem he)).1 hm
      exact (and_frameMask_eq_iff _ _).2 (h e he hr hav w hw)
  · intro e he w bits hm
    exact ((handed_iff (hrun.step_of_mem he)).1 hm).2.2

theorem spi_words_survive_iff_eightBits : ∃ tr s,
    Run (traced machine) (powerUp default) (frameAndRead 7 0x1234 0xABCD 7) tr s ∧
    readValues (tr.flatMap Step.obs) <+: (((ended (tr.flatMap Step.obs)).filter fun e => !e.2).map fun e =>
      UInt16.ofNat (e.1.dataBuffer.toNat % 2 ^ e.1.bitsPerFrame)) := by
  have hx : (exec (traced machine) (powerUp default) (frameAndRead 7 0x1234 0xABCD 7)).map (fun r =>
      r.2.all fun e => decide (e.pre.rxFifo.numAvailable ≠ 0 → FrontFits e.pre e.pre.rxFifo)) = some true := by
    decide +kernel
  obtain ⟨⟨s, tr⟩, he, hx⟩ := Option.map_eq_some_iff.1 hx
  have hrun := Run.of_exec he
  refine ⟨tr, s, hrun, (spi_words_survive_iff default _ tr s hrun (by decide)).1.2 fun e hmem _ => ?_⟩
  exact of_decide_eq_true (List.all_eq_true.1 hx e hmem)

/-- 0xABCD comes in with 16-bit words; CR0 is set to 8 bits, and the read of DR returns 0xCD. -/
theorem not_survives_reconfigured : ¬ ∀ (reg : SpiRegs) (is : List Op) (tr : List (Step Spi Op Obs)) (s : Spi),
    Run (traced machine) (powerUp reg) is tr s → .resetNeg ∉ is →
    readValues (tr.flatMap Step.obs) <+: (((ended (tr.flatMap Step.obs)).filter fun e => !e.2).map fun e =>
      UInt16.ofNat (e.1.dataBuffer.toNat % 2 ^ e.1.bitsPerFrame)) := by
  intro h
  have hx : (exec (traced machine) (powerUp default) (frameAndRead 15 0x1234 0xABCD 7)).map (fun r =>
      (readValues (r.2.flatMap Step.obs), ((ended (r.2.flatMap Step.obs)).filter fun e => !e.2).map fun e =>
        UInt16.ofNat (e.1.dataBuffer.toNat % 2 ^ e.1.bitsPerFrame))) = some ([0xCD], [0xABCD]) := by
    decide +kernel
  obtain ⟨⟨s, tr⟩, he, hx⟩ := Option.map_eq_some_iff.1 hx
  obtain ⟨hr, hs⟩ := Prod.mk.inj hx
  have hp := h default _ tr s (Run.of_exec he) (by decide)
  rw [hr, hs] at hp
  exact absurd hp (by decide)

end CdcVp
