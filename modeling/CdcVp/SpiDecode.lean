import CdcVp.SpiMove

/-!
# The address map of SPI writes

`read_reg` decodes the whole address, `write_reg` its low byte. Below 0x100 a write changes the register it
addresses and what goes with it (`Touches`); from there on it goes to the register with the same low byte.
-/

namespace CdcVp
open FlatStore LittleEndian Runs

inductive SpiReg
  | cr0 | cr1 | dr | sr | cpsr | imsc | ris | mis | icr | dmacr
deriving DecidableEq, Repr

namespace SpiReg

def get (r : SpiRegs) : SpiReg → UInt16
  | .cr0 => r.cr0
  | .cr1 => r.cr1
  | .dr => r.dr
  | .sr => r.sr
  | .cpsr => r.cpsr
  | .imsc => r.imsc
  | .ris => r.ris
  | .mis => r.mis
  | .icr => r.icr
  | .dmacr => r.dmacr

/-- Where `read_reg` reads the register. -/
def readAddress : SpiReg → UInt64
  | .cr0 => 0x00
  | .cr1 => 0x04
  | .dr => 0x08
  | .sr => 0x0c
  | .cpsr => 0x10
  | .imsc => 0x14
  | .ris => 0x18
  | .mis => 0x1c
  | .icr => 0x20
  | .dmacr => 0x24

end SpiReg

namespace Spi
variable {s s' : Spi} {offset : UInt8} {value : UInt16} {ok : Bool} {o : List Obs} {addr : UInt64}

/-- The offsets at which `write_reg` takes a value. -/
def writeOffsets : List UInt8 := [0x00, 0x04, 0x08, 0x10, 0x14, 0x20, 0x24]

/-- The addresses of the registers that can be written. -/
def Writable (addr : UInt64) : Prop := addr ∈ ([0x00, 0x04, 0x08, 0x10, 0x14, 0x20, 0x24] : List UInt64)

/-- The registers that a write may change: the one at its address, RIS through ICR, SR through DR. -/
def Touches (addr : UInt64) (r : SpiReg) : Prop :=
  r.readAddress = addr ∨ r = .ris ∧ addr = 0x20 ∨ r = .sr ∧ addr = 0x08

/-- A write from `s` to `s'` keeps to its address. -/
structure WriteFramed (addr : UInt64) (s s' : Spi) (status : TlmResponse) : Prop where
  unmapped : ¬ Writable addr → status = .genericError ∧ s' = s
  mapped : Writable addr → ∀ r, ¬ Touches addr r → r.get s'.reg = r.get s.reg

/-- The address is beyond the registers, and its low byte is that of one that can be written. -/
def Aliases (addr : UInt64) : Prop := 0x100 ≤ addr ∧ addr.toUInt8 ∈ writeOffsets

instance (addr : UInt64) : Decidable (Writable addr) := inferInstanceAs (Decidable (_ ∈ _))
instance (addr : UInt64) : Decidable (Aliases addr) := inferInstanceAs (Decidable (_ ∧ _))

theorem toUInt64_toUInt8 (h : addr < 0x100) : addr.toUInt8.toUInt64 = addr := by
  have hlt : addr.toNat < 256 := UInt64.lt_iff_toNat_lt.1 h
  rw [← UInt64.toNat_inj, UInt8.toNat_toUInt64, UInt64.toNat_toUInt8]
  exact Nat.mod_eq_of_lt hlt

theorem writable_toUInt64_iff : Writable offset.toUInt64 ↔ offset ∈ writeOffsets := by
  have hmap : ([0x00, 0x04, 0x08, 0x10, 0x14, 0x20, 0x24] : List UInt64) = writeOffsets.map UInt8.toUInt64 := rfl
  rw [Writable, hmap, List.mem_map]
  constructor
  · rintro ⟨b, hb, he⟩
    rwa [← UInt8.toUInt64_inj.1 he]
  · exact fun h => ⟨offset, h, rfl⟩

theorem not_writable (h : 0x100 ≤ addr) : ¬ Writable addr := by
  intro hw
  simp only [Writable, List.mem_cons, List.not_mem_nil, or_false] at hw
  rcases hw with rfl | rfl | rfl | rfl | rfl | rfl | rfl <;> exact absurd h (by decide)

/-! ### `write_reg` -/

theorem writeReg_unmapped (s : Spi) (value : UInt16) (h : offset ∉ writeOffsets) :
    ∃ o, s.writeReg offset value = (s, false, o) := by
  simp only [writeOffsets, List.mem_cons, List.not_mem_nil, or_false, not_or] at h
  obtain ⟨h00, h04, h08, h10, h14, h20, h24⟩ := h
  rw [writeReg, if_neg h00, if_neg h04, if_neg h08]
  split_ifs <;> exact ⟨_, rfl⟩

theorem writeReg_full (s : Spi) (value : UInt16) (hfull : s.txFifo.numFree = 0) :
    s.writeReg 0x08 value = ({ s with reg := { s.reg with dr := value } }, false, []) := by
  have hn : s.txFifo.nbWrite ⟨value, s.epoch⟩ = none := ScFifo.nbWrite_eq_none.2 hfull
  simp +decide only [writeReg, if_true, if_false, hn]

/-- A write of DR is refused when `tx_fifo` is full; every other write at one of the offsets is accepted. -/
theorem writeReg_mapped (h : s.writeReg offset value = (s', ok, o)) (hoff : offset ∈ writeOffsets)
    (hno : ¬ (offset = 0x08 ∧ s.txFifo.numFree = 0)) :
    ok = true ∧ ∀ r, ¬ Touches offset.toUInt64 r → r.get s'.reg = r.get s.reg := by
  simp only [writeOffsets, List.mem_cons, List.not_mem_nil, or_false] at hoff
  rcases hoff with rfl | rfl | rfl | rfl | rfl | rfl | rfl
  case inr.inr.inl =>
    cases hw : s.txFifo.nbWrite ⟨value, s.epoch⟩ with
    | none => exact absurd ⟨rfl, ScFifo.nbWrite_eq_none.1 hw⟩ hno
    | some tx =>
      simp +decide only [writeReg, if_true, if_false, hw] at h
      cases h
      refine ⟨rfl, fun r hr => ?_⟩
      cases r <;> first | rfl | exact absurd (.inl rfl) hr | exact absurd (.inr (.inr ⟨rfl, rfl⟩)) hr
  all_goals
    simp +decide only [writeReg, if_true, if_false] at h
    cases h
    refine ⟨rfl, fun r hr => ?_⟩
    cases r <;> first | rfl | exact absurd (.inl rfl) hr | exact absurd (.inr (.inl ⟨rfl, rfl⟩)) hr

/-- `b_transport` does not report an error. -/
def Supported (t : Payload) : Prop := ¬ (t.address > 0xffc ∨ t.dataLength > 2)

theorem bTransport_of_write (s : Spi) {t : Payload} {d : Nat} {m : List UInt8} (hcmd : t.command = .write)
    (hacc : Supported t) (hptr : t.dataPtr = some m) (hm : 2 ≤ m.length)
    (h : s.writeReg t.address.toUInt8 (UInt16.ofNat (LittleEndian.value (m.take 2))) = (s', ok, o)) :
    s.bTransport t d = some (s',
      .returned { t with responseStatus := if ok then .ok else .genericError } (d + 20000), o) := by
  unfold Supported at hacc
  simp only [bTransport, if_neg hacc, hcmd, hptr, Option.getD_some, if_neg (Nat.not_lt.2 hm), h]

theorem bTransport_of_short (s : Spi) {t : Payload} {d : Nat} {m : List UInt8} (hcmd : t.command = .write)
    (hacc : Supported t) (hptr : t.dataPtr = some m) (hm : m.length < 2) : s.bTransport t d = none := by
  unfold Supported at hacc
  simp only [bTransport, if_neg hacc, hcmd, hptr, Option.getD_some, if_pos hm]

theorem setDr_eq_iff (s : Spi) (value : UInt16) :
    { s with reg := { s.reg with dr := value } } = s ↔ s.reg.dr = value := by
  constructor
  · intro h
    exact (congrArg (fun a => a.reg.dr) h).symm
  · rintro rfl
    rfl

/-- What a write at each address amounts to. -/
theorem writeFramed_iff (h : s.writeReg addr.toUInt8 value = (s', ok, o)) :
    WriteFramed addr s s' (if ok then .ok else .genericError) ↔ ¬ Aliases addr ∨
      addr.toUInt8 = 0x08 ∧ s.txFifo.numFree = 0 ∧ s.reg.dr = value := by
  by_cases hoff : addr.toUInt8 ∈ writeOffsets
  case neg =>
    obtain ⟨o', hq⟩ := s.writeReg_unmapped value hoff
    cases hq.symm.trans h
    refine iff_of_true ⟨fun _ => ⟨rfl, rfl⟩, fun _ r _ => rfl⟩ (.inl fun ha => hoff ha.2)
  rcases UInt64.lt_or_le addr 0x100 with hlow | hhigh
  · have hback := toUInt64_toUInt8 hlow
    have hw : Writable addr := hback ▸ writable_toUInt64_iff.2 hoff
    refine iff_of_true ⟨fun hno => absurd hw hno, fun _ r hr => ?_⟩ (.inl fun ha => UInt64.not_lt.2 ha.1 hlow)
    by_cases hfull : addr.toUInt8 = 0x08 ∧ s.txFifo.numFree = 0
    · obtain ⟨h08, hfull⟩ := hfull
      have h8 : addr = 0x08 := by rw [← hback, h08]; rfl
      rw [h08, writeReg_full s value hfull] at h
      cases h
      cases r <;> first | rfl | exact absurd (.inl h8.symm) hr
    · exact (writeReg_mapped h hoff hfull).2 r (by rwa [hback])
  · have hno := not_writable hhigh
    rw [or_iff_right (not_not_intro ⟨hhigh, hoff⟩)]
    by_cases hfull : addr.toUInt8 = 0x08 ∧ s.txFifo.numFree = 0
    · rw [hfull.1, writeReg_full s value hfull.2] at h
      cases h
      rw [and_iff_right hfull.1, and_iff_right hfull.2, ← setDr_eq_iff]
      exact ⟨fun hf => (hf.unmapped hno).2, fun he => ⟨fun _ => ⟨rfl, he⟩, fun hw => absurd hw hno⟩⟩
    · have hok := (writeReg_mapped h hoff hfull).1
      refine iff_of_false (fun hf => ?_) fun hd => hfull ⟨hd.1, hd.2.1⟩
      have herr := (hf.unmapped hno).1
      rw [hok] at herr
      cases herr

end Spi

open Spi

/-- Where an SPI write keeps to the address map. In every reachable state, a write of two bytes at an address up
to 0xffc is refused without a trace at an address where nothing can be written, and else changes only the
register there and what goes with it, iff the address is below 0x100, or its low byte is not that of a register
that can be written, or it is that of DR with `tx_fifo` full and the value in `reg_dr` already. -/
theorem spi_write_framed_iff (reg : SpiRegs) (is : List Op) (os : List Obs) (s : Spi)
    (_hrun : Run machine (powerUp reg) is os s) (t : Payload) (d : Nat) (buf : List UInt8)
    (hcmd : t.command = .write) (haddr : t.address ≤ 0xffc) (hlen : t.dataLength = 2) (hbuf : t.HasBuffer buf) :
    ∃ s' t' d' o, s.bTransport t d = some (s', .returned t' d', o) ∧
      (WriteFramed t.address s s' t'.responseStatus ↔ ¬ Aliases t.address ∨ t.address.toUInt8 = 0x08 ∧
        s.txFifo.numFree = 0 ∧ s.reg.dr = UInt16.ofNat (value buf)) := by
  obtain ⟨hptr, hsize⟩ := hbuf
  have hsize : buf.length = 2 := by rw [hsize, hlen]; rfl
  have hacc : Supported t := not_or.2 ⟨UInt64.not_lt.2 haddr, by rw [hlen]; decide⟩
  have ht := bTransport_of_write s (d := d) hcmd hacc hptr hsize.ge rfl
  rw [List.take_of_length_le hsize.le] at ht
  exact ⟨_, _, _, _, ht, writeFramed_iff rfl⟩

theorem spi_write_framed_iff_cr0 : ∃ s s' t' d' o, bTransport s (spiWrite 0x00 0x0007) 0 =
    some (s', .returned t' d', o) ∧ WriteFramed 0x00 s s' t'.responseStatus := by
  have hx : (exec machine (powerUp default) [.handleReset]).isSome = true := by decide +kernel
  obtain ⟨⟨s, os⟩, he⟩ := Option.isSome_iff_exists.1 hx
  obtain ⟨s', t', d', o, ht, hiff⟩ := spi_write_framed_iff default [.handleReset] os s (Run.of_exec he)
    (spiWrite 0x00 0x0007) 0 [0x07, 0x00] rfl (by decide) rfl ⟨by decide, rfl⟩
  exact ⟨s, s', t', d', o, ht, hiff.2 (.inl (by decide))⟩

/-- A write of 7 to 0x100 is answered OK and goes to CR0. -/
theorem not_writeFramed_beyondRegisters : ¬ ∀ (reg : SpiRegs) (is : List Op) (os : List Obs) (s : Spi),
    Run machine (powerUp reg) is os s → ∀ (t : Payload) (d : Nat) (buf : List UInt8), t.command = .write →
      t.address ≤ 0xffc → t.dataLength = 2 → t.HasBuffer buf →
      ∀ s' t' d' o, s.bTransport t d = some (s', .returned t' d', o) →
        WriteFramed t.address s s' t'.responseStatus := by
  intro h
  have hx : (exec machine (powerUp default) [.handleReset]).bind (fun r =>
      (r.1.bTransport (spiWrite 0x100 0x0007) 0).map fun q => (q.1.reg.cr0, q.2.1)) =
      some (0x0007, .returned { spiWrite 0x100 0x0007 with responseStatus := .ok } 20000) := by decide +kernel
  obtain ⟨⟨s, os⟩, he, hx⟩ := Option.bind_eq_some_iff.1 hx
  obtain ⟨⟨s', out, o⟩, ht, hx⟩ := Option.map_eq_some_iff.1 hx
  obtain ⟨-, rfl⟩ := Prod.mk.injEq .. ▸ hx
  have hf := h default [.handleReset] os s (Run.of_exec he) (spiWrite 0x100 0x0007) 0 [0x07, 0x00] rfl
    (by decide) rfl ⟨by decide, rfl⟩ s' _ _ o ht
  cases (hf.unmapped (by decide)).1

end CdcVp
