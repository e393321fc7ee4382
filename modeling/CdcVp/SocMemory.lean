import CdcVp.SocRuns

/-!
# The platform's RAM

`ramStore` is the RAM as one byte store over global addresses and `stored` what an input of the platform writes to
it. A run leaves at each address the byte last stored there (`run_ramStore`), whatever else is on the bus, and a
read returns what the store has.
-/

namespace CdcVp
open FlatStore Runs

namespace MemoryTlm
variable {m : MemoryTlm} {t : Payload} {ptr : List UInt8}

instance (m : MemoryTlm) (t : Payload) : Decidable (m.Fits t) := by unfold Fits; infer_instance

/-- What a transaction leaves in a RAM, whatever the payload. -/
theorem data_bTransport (hro : m.readOnly = false) (t : Payload) (d : Nat) : (m.bTransport t d).1.data =
    if t.command = .write ∧ m.Fits t then
      blit m.data t.address.toNat ((t.dataPtr.getD []).take t.dataLength.toNat)
    else m.data := by
  have hnil (off : Nat) : blit m.data off [] = m.data := by simp [blit]
  by_cases hf : m.Fits t
  swap
  · rw [if_neg fun h => hf h.2]
    have hc := mt (m.fits_iff t.address t.dataLength).1 hf
    simp only [bTransport, not_not.1 hc, if_true]
  have hc := (m.fits_iff t.address t.dataLength).2 hf
  cases hp : t.dataPtr with
  | none =>
    simp only [bTransport, hc, if_false, hp, Option.getD_none, List.take_nil, hnil, ite_self]
  | some buf =>
    cases hcmd : t.command with
    | read => simp [bTransport, hc, hp, hcmd]
    | ignore => simp [bTransport, hc, hp, hcmd]
    | write =>
      have hlen : t.address.toNat + (buf.take t.dataLength.toNat).length ≤ m.data.length := by
        rw [Fits] at hf
        rw [List.length_take]
        omega
      simp only [bTransport, hc, if_false, hp, hcmd, hro, Bool.false_eq_true, hf, and_self, if_true,
        Option.getD_some]
      exact m.store_data hlen

/-- A read that fits fills the buffer from the memory, and leaves the memory. -/
theorem bTransport_read (hc : t.command = .read) (hf : m.Fits t) (hp : t.dataPtr = some ptr) (d : Nat) :
    m.bTransport t d = (m, { t with
      dataPtr := some (blit ptr 0 (m.slice t.address.toNat t.dataLength.toNat))
      dmiAllowed := true
      responseStatus := .ok }, d + m.accessLatency) := by
  have hno := (m.fits_iff t.address t.dataLength).2 hf
  simp only [bTransport, hno, if_false, hp, hc]

theorem getElem?_blit_slice (hf : m.Fits t) (ptr : List UInt8) {j : Nat} (hj : j < t.dataLength.toNat) :
    (blit ptr 0 (m.slice t.address.toNat t.dataLength.toNat))[j]? = m.data[t.address.toNat + j]? := by
  have hlen := m.length_slice hf
  rw [blit, List.take_zero, List.nil_append, List.getElem?_append_left (by omega), m.getElem?_slice hj]

end MemoryTlm

namespace RiscvCustomSoc
variable {υ ι : Type*} {ip : Ip υ ι} {s s' : RiscvCustomSoc υ ι} {t : Payload} {d : Nat} {op : Op υ ι}
  {is : List (Op υ ι)} {o os : List Payload} {ptr : List UInt8}

/-- The RAM at its global addresses. -/
def ramStore (s : RiscvCustomSoc υ ι) : Store UInt8 := Block.byteAt (kRamBase.toNat, s.ram.data)

/-- The access lies in the RAM, whole. -/
def InRam (t : Payload) : Prop :=
  0x80000000 ≤ t.address.toNat ∧ t.address.toNat < 0x80010000 ∧
    t.address.toNat + t.dataLength.toNat ≤ 0x80010000

instance (t : Payload) : Decidable (InRam t) := by unfold InRam; infer_instance

/-- What an input of the platform stores in the RAM. -/
def stored : Op υ ι → List (Block UInt8)
  | .transport t _ =>
    if t.command = .write ∧ InRam t then
      [(t.address.toNat, (t.dataPtr.getD []).take t.dataLength.toNat)]
    else []
  | _ => []

theorem toNat_ram (h : ramRange.contains t.address = true) :
    (ramRange.toLocal t).address.toNat = t.address.toNat - 0x80000000 :=
  UInt64.toNat_sub_of_le _ _ (UInt64.le_iff_toNat_le.2 (contains_ram.1 h).1)

theorem fits_ram (h : ramRange.contains t.address = true) : s.ram.Fits (ramRange.toLocal t) ↔ InRam t := by
  have hsize : s.ram.data.length = 0x10000 := s.ram_size
  have hc := contains_ram.1 h
  rw [MemoryTlm.Fits, toNat_ram h, AddressRange.toLocal_dataLength, hsize, InRam]
  omega

theorem InRam.contains (h : InRam t) : ramRange.contains t.address = true := contains_ram.2 ⟨h.1, h.2.1⟩

/-- A memory access is one write of the store, or leaves it. -/
theorem ramStore_withRam (h : ramRange.contains t.address = true) (s : RiscvCustomSoc υ ι) (d : Nat) :
    (s.withRam (s.ram.bTransport (ramRange.toLocal t) d).1 (s.ram.bTransport_fst _ d)).ramStore =
      s.ramStore.writes (stored (.transport t d : Op υ ι)) := by
  have hdata := MemoryTlm.data_bTransport s.ram_writable (ramRange.toLocal t) d
  simp only [AddressRange.toLocal_command, AddressRange.toLocal_dataPtr, AddressRange.toLocal_dataLength,
    fits_ram h] at hdata
  rw [ramStore, withRam]
  dsimp only
  rw [hdata, stored]
  by_cases hw : t.command = .write ∧ InRam t
  swap
  · rw [if_neg hw, if_neg hw]
    rfl
  have hfits : t.address.toNat - 0x80000000 + ((t.dataPtr.getD []).take t.dataLength.toNat).length ≤
      s.ram.data.length := by
    have := (fits_ram (s := s) h).2 hw.2
    rw [MemoryTlm.Fits, toNat_ram h, AddressRange.toLocal_dataLength] at this
    rw [List.length_take]
    omega
  rw [if_pos hw, if_pos hw, toNat_ram h]
  funext x
  rw [byteAt_blit hfits]
  have hbase : kRamBase.toNat + (t.address.toNat - 0x80000000) = t.address.toNat :=
    Nat.add_sub_cancel' hw.2.1
  rw [hbase]
  rfl

theorem stored_of_not_ram (h : ¬ ramRange.contains t.address = true) : stored (.transport t d : Op υ ι) = [] :=
  if_neg fun hw => h hw.2.contains

theorem step_ramStore (h : machine ip s op = some (s', o)) : s'.ramStore = s.ramStore.writes (stored op) := by
  cases op with
  | transport t d =>
    obtain ⟨r, hr, heq⟩ := Option.map_eq_some_iff.1 h
    obtain ⟨r', hr', hs⟩ := bTransport_served ip s t d
    obtain rfl := Option.some.inj (hr.symm.trans hr')
    cases heq
    by_cases hmem : ramRange.contains t.address = true
    · rw [hs.takes .ram hmem]
      exact ramStore_withRam hmem s d
    · have hnone : (dispatch (.transport t d : Op υ ι)).bind Act.toRam = none := by
        rw [dispatch, if_neg hmem]
        split_ifs <;> rfl
      have hsame := (part_ram ip).keeps h hnone
      rw [stored_of_not_ram hmem, ramStore, hsame]
      rfl
  | i2cIrq | onSources | kernel | uart | i2c =>
    have hsame := (part_ram ip).keeps h rfl
    rw [ramStore, hsame]
    rfl

/-- Over a run, each address of the RAM holds the byte last stored there. -/
theorem run_ramStore (h : Run (machine ip) s is os s') : s'.ramStore = s.ramStore.writes (is.flatMap stored) := by
  induction h with
  | nil => rfl
  | snoc _ hi ih =>
    rw [step_ramStore hi, ih, List.flatMap_append, Store.writes_append, List.flatMap_singleton]

/-- A read of the RAM returns what the store has, and changes nothing. -/
theorem read_ram (ip : Ip υ ι) (hc : t.command = .read) (hin : InRam t) (hp : t.dataPtr = some ptr)
    (s : RiscvCustomSoc υ ι) (d : Nat) : ∃ bs, s.bTransport ip t d = some (s, { t with
        dataPtr := some bs, dmiAllowed := true, responseStatus := .ok }, d + s.ram.accessLatency) ∧
      ∀ j < t.dataLength.toNat, bs[j]? = s.ramStore (t.address.toNat + j) := by
  have hmem := hin.contains
  have hfits := (fits_ram (s := s) hmem).2 hin
  have hread := MemoryTlm.bTransport_read (t := ramRange.toLocal t) hc hfits hp d
  obtain ⟨r, hr, hs⟩ := bTransport_served ip s t d
  obtain rfl := hs.takes .ram hmem
  refine ⟨blit ptr 0 (s.ram.slice (ramRange.toLocal t).address.toNat (ramRange.toLocal t).dataLength.toNat), ?_, ?_⟩
  · rw [hr]
    simp only [hread]
    rfl
  · intro j hj
    rw [MemoryTlm.getElem?_blit_slice hfits ptr hj, toNat_ram hmem, ramStore, Block.byteAt,
      if_pos (show kRamBase.toNat ≤ t.address.toNat + j from hin.1.trans (Nat.le_add_right _ _))]
    have hbase : t.address.toNat + j - kRamBase.toNat = t.address.toNat - 0x80000000 + j :=
      Nat.sub_add_comm hin.1
    rw [hbase]

end RiscvCustomSoc
end CdcVp
