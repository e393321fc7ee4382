import CdcVp.BufferAccess
import CdcVp.Pwm
import CdcVp.SpiData
import CdcVp.SpiDecode

/-!
# What the register targets touch of a payload

A transaction with its attributes fixed is an access to the memory at its data pointer. A write of the SPI is a
load of two bytes and a read a store of `min(2, data_length)`; the PWM loads or stores four bytes. `data_length`
bounds only the reads of the SPI.
-/

namespace CdcVp
open FlatStore LittleEndian Runs BufferAccess

instance nontrivialUInt8 : Nontrivial UInt8 := ⟨0, 1, by decide⟩

namespace Spi
variable {s : Spi} {t : Payload} {d : Nat} {offset : UInt8} {v v' : UInt16}

/-- The transaction on the memory at its data pointer. -/
def access (s : Spi) (t : Payload) (d : Nat) : MemOp Spi UInt8 := fun m =>
  match s.bTransport { t with dataPtr := some m } d with
  | some (s', .returned t' _, _) => some (s', t'.dataPtr.getD [])
  | _ => none

/-- The transaction is answered OK. -/
def AnswersOk (s : Spi) (t : Payload) (d : Nat) : Prop :=
  ∃ m s' t' d' o, s.bTransport { t with dataPtr := some m } d = some (s', .returned t' d', o) ∧
    t'.responseStatus = .ok

theorem access_write (hcmd : t.command = .write) (hacc : Supported t) : s.access t d =
    load 2 fun bs => (s.writeReg t.address.toUInt8 (UInt16.ofNat (value bs))).1 := by
  funext m
  unfold access load
  by_cases hm : m.length < 2
  · rw [bTransport_of_short s (t := { t with dataPtr := some m }) hcmd hacc rfl hm, if_pos hm]
  · rw [bTransport_of_write s (t := { t with dataPtr := some m }) hcmd hacc rfl (Nat.le_of_not_lt hm) rfl, if_neg hm]
    rfl

theorem access_read (hcmd : t.command = .read) (hacc : Supported t) : s.access t d =
    store (s.readReg t.address.toUInt16).1
      ((bytes 2 (s.readReg t.address.toUInt16).2.1.toNat).take (min 2 t.dataLength.toNat)) := by
  funext m
  have hlen : ((bytes 2 (s.readReg t.address.toUInt16).2.1.toNat).take (min 2 t.dataLength.toNat)).length =
      min 2 t.dataLength.toNat := by
    rw [List.length_take, length_bytes, Nat.min_eq_left (Nat.min_le_left _ _)]
  unfold access bTransport store
  dsimp only
  rw [if_neg hacc, hcmd, hlen]
  dsimp only [Option.getD_some]
  by_cases hm : m.length < min 2 t.dataLength.toNat
  · rw [if_pos hm, if_pos hm]
  · rw [if_neg hm, if_neg hm]
    rfl

theorem AnswersOk.supported (h : AnswersOk s t d) : Supported t := by
  obtain ⟨m, s', t', d', o, h, -⟩ := h
  intro hbad
  unfold bTransport at h
  dsimp only at h
  rw [if_pos hbad] at h
  cases h

/-- A write that is answered OK goes to a register. -/
theorem AnswersOk.written (h : AnswersOk s t d) (hcmd : t.command = .write) :
    t.address.toUInt8 ∈ writeOffsets ∧ ¬ (t.address.toUInt8 = 0x08 ∧ s.txFifo.numFree = 0) := by
  obtain ⟨m, s', t', d', o, h, hok⟩ := h
  obtain ⟨v, ok, hq, hstatus⟩ := bTransport_write (t := { t with dataPtr := some m }) hcmd h
  rw [hstatus] at hok
  refine ⟨by_contra fun hoff => ?_, ?_⟩
  · obtain ⟨o, hno⟩ := s.writeReg_unmapped v hoff
    cases hno.symm.trans hq
    cases hok
  · rintro ⟨h08, hfull⟩
    rw [h08, writeReg_full s _ hfull] at hq
    cases hq
    cases hok

/-- Beyond CR0 and DR a write uses only the low byte of its value. -/
theorem writeReg_low (h00 : offset ≠ 0x00) (h08 : offset ≠ 0x08) (hv : v &&& 0xff = v' &&& 0xff) :
    (s.writeReg offset v).1 = (s.writeReg offset v').1 := by
  have hmask : ∀ x : UInt16, 0xff &&& x = x → v &&& x = v' &&& x := by
    intro x hx
    rw [← hx, ← UInt16.and_assoc, hv, UInt16.and_assoc]
  have hf : v &&& 0xf = v' &&& 0xf := hmask 0xf (by decide)
  have h3 : v &&& 0x3 = v' &&& 0x3 := hmask 0x3 (by decide)
  simp only [writeReg, if_neg h00, if_neg h08, hv, hf, h3]

theorem writeReg_dr (s : Spi) (v : UInt16) : (s.writeReg 0x08 v).1.reg.dr = v := by
  cases hw : s.txFifo.nbWrite ⟨v, s.epoch⟩ with
  | none => simp +decide only [writeReg, if_true, if_false, hw]
  | some tx =>
    simp +decide only [writeReg, if_true, if_false, hw]
    rfl

/-- Every register keeps bit 1 of what is written to it. -/
theorem writeReg_zero_ne_two (h : offset ∈ writeOffsets) :
    (s.writeReg offset 0).1 ≠ (s.writeReg offset 2).1 := by
  intro he
  simp only [writeOffsets, List.mem_cons, List.not_mem_nil, or_false] at h
  rcases h with rfl | rfl | rfl | rfl | rfl | rfl | rfl
  · exact absurd (congrArg (fun a => a.reg.cr0) he) (show (0 : UInt16) ≠ 2 by decide)
  · exact absurd (congrArg (fun a => a.reg.cr1) he) (show (0 : UInt16) ≠ 2 by decide)
  · have hdr := congrArg (fun a => a.reg.dr) he
    simp only [writeReg_dr] at hdr
    exact absurd hdr (by decide)
  · exact absurd (congrArg (fun a => a.reg.cpsr) he) (show (0 : UInt16) ≠ 2 by decide)
  · exact absurd (congrArg (fun a => a.reg.imsc) he) (show (0 : UInt16) ≠ 2 by decide)
  · exact absurd (congrArg (fun a => a.reg.icr) he) (show (3 : UInt16) ≠ 1 by decide)
  · exact absurd (congrArg (fun a => a.reg.dmacr) he) (show (0 : UInt16) ≠ 2 by decide)

theorem low_ofNat_value (a b : UInt8) : (UInt16.ofNat (value [a, b]) &&& 0xff).toNat = a.toNat := by
  have ha := a.toNat_lt
  have hb := b.toNat_lt
  have hand : (UInt16.ofNat (value [a, b]) &&& 0xff).toNat = (UInt16.ofNat (value [a, b])).toNat % 2 ^ 8 :=
    toNat_and_frameMask _ 8
  rw [hand, UInt16.toNat_ofNat', value, value, value]
  omega

/-- What a write of fewer than two bytes depends on. -/
theorem dependsOn_write_iff {n : Nat} (hn : n < 2) (h : offset ∈ writeOffsets) :
    DependsOn n (load 2 fun bs => (s.writeReg offset (UInt16.ofNat (value bs))).1) ↔
      n = 1 ∧ offset ≠ 0x00 ∧ offset ≠ 0x08 := by
  rw [dependsOn_load_iff hn.le]
  constructor
  · intro hg
    have hn1 : n = 1 := by
      by_contra hne
      obtain rfl : n = 0 := by omega
      exact writeReg_zero_ne_two h (hg [0, 0] [2, 0] rfl rfl rfl)
    subst hn1
    have he := hg [0, 0] [0, 1] rfl rfl rfl
    refine ⟨rfl, ?_, ?_⟩
    · rintro rfl
      exact absurd (congrArg (fun a => a.reg.cr0) he) (show (0 : UInt16) ≠ 256 by decide)
    · rintro rfl
      have hdr := congrArg (fun a => a.reg.dr) he
      simp only [writeReg_dr] at hdr
      exact absurd hdr (by decide)
  · rintro ⟨rfl, h00, h08⟩ m m' hm hm' ht
    obtain ⟨a, b, rfl⟩ := List.length_eq_two.1 hm
    obtain ⟨a', b', rfl⟩ := List.length_eq_two.1 hm'
    cases ht
    refine writeReg_low h00 h08 (UInt16.toNat_inj.1 ?_)
    rw [low_ofNat_value, low_ofNat_value]

/-- What an SPI transaction answered OK touches. -/
theorem confined_iff (h : AnswersOk s t d) (hcmd : t.command = .read ∨ t.command = .write) :
    Confined t.dataLength.toNat (s.access t d) ↔ t.command = .read ∨ 2 ≤ t.dataLength.toNat := by
  rcases hcmd with hr | hw
  · rw [access_read hr h.supported, confined_store_iff]
    refine iff_of_true ?_ (.inl hr)
    rw [List.length_take]
    omega
  · rw [access_write hw h.supported, confined_load_iff, hw]
    exact (or_iff_right TlmCommand.noConfusion).symm

theorem dependsOn_iff (h : AnswersOk s t d) (hcmd : t.command = .read ∨ t.command = .write) :
    DependsOn t.dataLength.toNat (s.access t d) ∧ Keeps t.dataLength.toNat (s.access t d) ↔
      t.command = .read ∨ 2 ≤ t.dataLength.toNat ∨
        t.dataLength.toNat = 1 ∧ t.address.toUInt8 ≠ 0x00 ∧ t.address.toUInt8 ≠ 0x08 := by
  rcases hcmd with hr | hw
  · have hc := (confined_iff h (.inl hr)).2 (.inl hr)
    exact iff_of_true ⟨hc.depends, hc.keeps⟩ (.inl hr)
  · rw [access_write hw h.supported, hw, or_iff_right TlmCommand.noConfusion, and_iff_left keeps_load]
    rcases Nat.lt_or_ge t.dataLength.toNat 2 with hlt | hge
    · rw [dependsOn_write_iff hlt (h.written hw).1, or_iff_right (Nat.not_le.2 hlt)]
    · exact iff_of_true (dependsOn_load hge) (.inl hge)

end Spi

namespace Pwm
variable {s : Pwm} {t : Payload} {d : Nat} {r r' : PwmRegs} {v v' : UInt32}

/-- The transaction on the memory at its data pointer. -/
def access (s : Pwm) (t : Payload) (d : Nat) : MemOp Pwm UInt8 := fun m =>
  (s.bTransport { t with dataPtr := some m } d).map fun q => (q.1, q.2.1.dataPtr.getD [])

/-- The transaction is answered OK. -/
def AnswersOk (s : Pwm) (t : Payload) (d : Nat) : Prop :=
  ∃ m s' t' d' o, s.bTransport { t with dataPtr := some m } d = some (s', t', d', o) ∧ t'.responseStatus = .ok

theorem isSome_write (r : PwmRegs) (addr : UInt64) (v v' : UInt32) :
    (r.write addr v).isSome = (r.write addr v').isSome := by
  unfold PwmRegs.write
  split_ifs <;> rfl

theorem write_inj {addr : UInt64} (h : r.write addr v = some r') (h' : r.write addr v' = some r') : v = v' := by
  unfold PwmRegs.write at h h'
  split_ifs at h h'
  · exact congrArg PwmRegs.cfg (Option.some.inj (h.trans h'.symm))
  · exact congrArg PwmRegs.pwmEn (Option.some.inj (h.trans h'.symm))
  · exact congrArg PwmRegs.invert (Option.some.inj (h.trans h'.symm))
  · exact congrArg PwmRegs.phaseDelay (Option.some.inj (h.trans h'.symm))
  · exact congrArg PwmRegs.dutyCycle (Option.some.inj (h.trans h'.symm))
  · exact congrArg PwmRegs.period (Option.some.inj (h.trans h'.symm))

theorem access_write (hcmd : t.command = .write) (hmap : ∀ v, (s.reg.write t.address v).isSome = true) :
    s.access t d = load 4 fun bs =>
      { s with reg := (s.reg.write t.address (UInt32.ofNat (value bs))).getD s.reg } := by
  funext m
  obtain ⟨reg, hreg⟩ := Option.isSome_iff_exists.1 (hmap (UInt32.ofNat (value (m.take 4))))
  simp only [access, bTransport, load, hcmd, if_true, Option.getD_some, hreg]
  split <;> rfl

theorem access_read {data : UInt32} (hcmd : t.command ≠ .write) (hmap : s.reg.read t.address = some data) :
    s.access t d = store s (bytes 4 data.toNat) := by
  funext m
  simp only [access, bTransport, store, if_neg hcmd, Option.getD_some, hmap, length_bytes]
  split <;> rfl

theorem AnswersOk.written (h : AnswersOk s t d) (hcmd : t.command = .write) (v : UInt32) :
    (s.reg.write t.address v).isSome = true := by
  obtain ⟨m, s', t', d', o, h, hok⟩ := h
  cases hreg : s.reg.write t.address (UInt32.ofNat (value (m.take 4))) with
  | none =>
    simp only [bTransport, hcmd, if_true, Option.getD_some, hreg] at h
    cases h
    cases hok
  | some reg =>
    rw [isSome_write s.reg t.address v (UInt32.ofNat (value (m.take 4))), hreg]
    rfl

theorem AnswersOk.read (h : AnswersOk s t d) (hcmd : t.command ≠ .write) :
    ∃ data, s.reg.read t.address = some data := by
  obtain ⟨m, s', t', d', o, h, hok⟩ := h
  cases hreg : s.reg.read t.address with
  | none =>
    simp only [bTransport, if_neg hcmd, Option.getD_some, hreg] at h
    cases h
    cases hok
  | some data => exact ⟨data, rfl⟩

/-- What a PWM transaction answered OK touches. -/
theorem confined_iff (h : AnswersOk s t d) :
    Confined t.dataLength.toNat (s.access t d) ↔ 4 ≤ t.dataLength.toNat := by
  by_cases hcmd : t.command = .write
  · rw [access_write hcmd (h.written hcmd), confined_load_iff]
  · obtain ⟨data, hdata⟩ := h.read hcmd
    rw [access_read hcmd hdata, confined_store_iff, length_bytes]

/-- The fourth byte of a write goes into the register, and that of a read into the buffer. -/
theorem dependsOn_iff (h : AnswersOk s t d) :
    DependsOn t.dataLength.toNat (s.access t d) ∧ Keeps t.dataLength.toNat (s.access t d) ↔
      4 ≤ t.dataLength.toNat := by
  constructor
  · intro hd
    by_contra hlt
    have hn : t.dataLength.toNat ≤ 3 := Nat.le_of_lt_succ (Nat.lt_of_not_le hlt)
    by_cases hcmd : t.command = .write
    · have hw := h.written hcmd
      rw [access_write hcmd hw, dependsOn_load_iff (Nat.le_succ_of_le hn)] at hd
      have htake : ∀ n ≤ 3, ([0, 0, 0, 0] : List UInt8).take n = [0, 0, 0, 1].take n := by decide
      have hg := congrArg Pwm.reg (hd.1 [0, 0, 0, 0] [0, 0, 0, 1] rfl rfl (htake _ hn))
      obtain ⟨r, hr⟩ := Option.isSome_iff_exists.1 (hw (UInt32.ofNat (value [0, 0, 0, 0])))
      obtain ⟨r', hr'⟩ := Option.isSome_iff_exists.1 (hw (UInt32.ofNat (value [0, 0, 0, 1])))
      simp only [hr, hr', Option.getD_some] at hg
      subst hg
      exact absurd (write_inj hr hr') (by decide)
    · obtain ⟨data, hdata⟩ := h.read hcmd
      rw [access_read hcmd hdata, keeps_store_iff, length_bytes] at hd
      exact hlt hd.2
  · intro hle
    have hc := (confined_iff h).2 hle
    exact ⟨hc.depends, hc.keeps⟩

end Pwm
/-- Where the register targets stay inside the payload. A read or write answered OK in a reachable state is
confined to the first `data_length` bytes, by the SPI iff it is a read or has two bytes, by the PWM iff it has
four. That the new state depends on those bytes only and that the others are left holds in the same cases, and
besides for an SPI write of one byte to a register other than CR0 and DR, which have more than eight bits. -/
theorem payload_bounds_iff (t : Payload) (d : Nat) (hcmd : t.command = .read ∨ t.command = .write) :
    (∀ (reg : SpiRegs) (is : List Spi.Op) (os : List Spi.Obs) (s : Spi),
      Run Spi.machine (Spi.powerUp reg) is os s → Spi.AnswersOk s t d →
      (Confined t.dataLength.toNat (s.access t d) ↔ t.command = .read ∨ 2 ≤ t.dataLength.toNat) ∧
      (DependsOn t.dataLength.toNat (s.access t d) ∧ Keeps t.dataLength.toNat (s.access t d) ↔
        t.command = .read ∨ 2 ≤ t.dataLength.toNat ∨
          t.dataLength.toNat = 1 ∧ t.address.toUInt8 ≠ 0x00 ∧ t.address.toUInt8 ≠ 0x08)) ∧
    ∀ (is : List Pwm.Op) (os : List Pwm.Obs) (s : Pwm), Run Pwm.machine Pwm.new is os s → Pwm.AnswersOk s t d →
      (Confined t.dataLength.toNat (s.access t d) ↔ 4 ≤ t.dataLength.toNat) ∧
      (DependsOn t.dataLength.toNat (s.access t d) ∧ Keeps t.dataLength.toNat (s.access t d) ↔
        4 ≤ t.dataLength.toNat) :=
  ⟨fun _ _ _ _ _ h => ⟨Spi.confined_iff h hcmd, Spi.dependsOn_iff h hcmd⟩,
    fun _ _ _ _ h => ⟨Pwm.confined_iff h, Pwm.dependsOn_iff h⟩⟩

theorem payload_bounds_iff_wholeRegisters :
    Confined 1 ((Spi.powerUp default).access ⟨.read, 0x00, none, 1, .incomplete, false⟩ 0) ∧
    Confined 4 (Pwm.new.access ⟨.write, 0x08, none, 4, .incomplete, false⟩ 0) := by
  constructor
  · exact ((payload_bounds_iff ⟨.read, 0x00, none, 1, .incomplete, false⟩ 0 (.inl rfl)).1 default [] [] _ .nil
      ⟨[0], _, _, _, _, rfl, rfl⟩).1.2 (.inl rfl)
  · exact ((payload_bounds_iff ⟨.write, 0x08, none, 4, .incomplete, false⟩ 0 (.inr rfl)).2 [] [] _ .nil
      ⟨[0, 0, 0, 0], _, _, _, _, rfl, rfl⟩).1.2 (by decide)

/-- One byte written to CR0: what lies behind the buffer is the high byte of the register. One byte read from
CFG: three bytes behind the buffer are overwritten. -/
theorem not_confined_oneByte :
    (¬ ∀ (reg : SpiRegs) (is : List Spi.Op) (os : List Spi.Obs) (s : Spi),
      Run Spi.machine (Spi.powerUp reg) is os s → ∀ (t : Payload) (d : Nat),
      t.command = .read ∨ t.command = .write → Spi.AnswersOk s t d →
      DependsOn t.dataLength.toNat (s.access t d) ∧ Keeps t.dataLength.toNat (s.access t d)) ∧
    ¬ ∀ (is : List Pwm.Op) (os : List Pwm.Obs) (s : Pwm), Run Pwm.machine Pwm.new is os s →
      ∀ (t : Payload) (d : Nat), t.command = .read ∨ t.command = .write → Pwm.AnswersOk s t d →
      DependsOn t.dataLength.toNat (s.access t d) ∧ Keeps t.dataLength.toNat (s.access t d) := by
  constructor
  · intro h
    have hd := (h default [] [] _ .nil ⟨.write, 0x00, none, 1, .incomplete, false⟩ 0 (.inr rfl)
      ⟨[0x07, 0x00], _, _, _, _, rfl, rfl⟩).1
    have he := hd [0x07] [0x00] [0x01] _ _ rfl rfl rfl
    exact absurd (congrArg (fun a => a.reg.cr0) he) (show (0x0007 : UInt16) ≠ 0x0107 by decide)
  · intro h
    have hk := (h [] [] _ .nil ⟨.read, 0x08, none, 1, .incomplete, false⟩ 0 (.inl rfl)
      ⟨[0, 0, 0, 0], _, _, _, _, rfl, rfl⟩).2
    have he := hk [0] [1, 1, 1] _ rfl rfl
    exact absurd he (by decide)

end CdcVp
