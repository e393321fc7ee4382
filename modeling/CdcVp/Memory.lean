import CdcVp.FlatStore
import CdcVp.Tlm
import Mathlib.Algebra.Group.Nat.Defs

/-!
# `memory_tlm`

The flat memory: `bTransport` rejects what does not fit, `transportDbg` clamps. Each has one lemma
saying all it can do (`bTransport_cases`, `transportDbg_cases`).
-/

namespace CdcVp
open FlatStore

/-- `memory_tlm`. `size_lt` holds of any `std::vector`. -/
structure MemoryTlm where
  data : List UInt8
  readOnly : Bool
  accessLatency : Nat
  size_lt : data.length < 2 ^ 64

namespace MemoryTlm

def size (m : MemoryTlm) : UInt64 := UInt64.ofNat m.data.length

/-- `memcpy` of `src` to `data_.data() + off`. -/
def store (m : MemoryTlm) (off : Nat) (src : List UInt8) : MemoryTlm :=
  if h : off + src.length ≤ m.data.length then
    { m with data := blit m.data off src, size_lt := by rw [length_blit h]; exact m.size_lt }
  else m

/-- The `n` bytes at `data_.data() + off`. -/
def slice (m : MemoryTlm) (off n : Nat) : List UInt8 := (m.data.drop off).take n

def bTransport (m : MemoryTlm) (trans : Payload) (delay : Nat) : MemoryTlm × Payload × Nat :=
  let delay := delay + m.accessLatency
  let addr := trans.address
  let len := trans.dataLength
  if addr > m.size ∨ len.toUInt64 > m.size - addr then
    (m, { trans with responseStatus := .addressError }, delay)
  else match trans.dataPtr with
  | none => (m, { trans with responseStatus := .genericError }, delay)
  | some buf =>
    match trans.command with
    | .read =>
      let buf' := blit buf 0 (m.slice addr.toNat len.toNat)
      (m, { trans with dataPtr := some buf', dmiAllowed := true, responseStatus := .ok }, delay)
    | .write =>
      if m.readOnly then (m, { trans with responseStatus := .commandError }, delay)
      else
        (m.store addr.toNat (buf.take len.toNat),
          { trans with dmiAllowed := true, responseStatus := .ok }, delay)
    | .ignore => (m, { trans with responseStatus := .commandError }, delay)

def stdMin (a b : UInt64) : UInt64 := if b < a then b else a

def transportDbg (m : MemoryTlm) (trans : Payload) : MemoryTlm × Payload × UInt32 :=
  let addr := trans.address
  let len := trans.dataLength
  match trans.dataPtr with
  | none => (m, { trans with responseStatus := .addressError }, 0)
  | some buf =>
    if addr > m.size then (m, { trans with responseStatus := .addressError }, 0)
    else
      let n := (stdMin len.toUInt64 (m.size - addr)).toUInt32
      if trans.command = .read then
        let buf' := blit buf 0 (m.slice addr.toNat n.toNat)
        (m, { trans with dataPtr := some buf', responseStatus := .ok }, n)
      else if trans.command = .write ∧ !m.readOnly then
        (m.store addr.toNat (buf.take n.toNat), { trans with responseStatus := .ok }, n)
      else (m, trans, 0)

/-! ### The backing store -/

section
variable (m : MemoryTlm)

@[simp] theorem size_toNat : m.size.toNat = m.data.length := by
  rw [size, UInt64.toNat_ofNat', Nat.mod_eq_of_lt m.size_lt]

theorem store_data {off : Nat} {src : List UInt8} (h : off + src.length ≤ m.data.length) :
    (m.store off src).data = blit m.data off src := by
  simp [store, h]

@[simp] theorem store_readOnly (off : Nat) (src : List UInt8) :
    (m.store off src).readOnly = m.readOnly := by
  unfold store; split <;> rfl

@[simp] theorem length_store (off : Nat) (src : List UInt8) :
    (m.store off src).data.length = m.data.length := by
  unfold store; split
  · exact length_blit ‹_›
  · rfl

theorem length_slice {off n : Nat} (h : off + n ≤ m.data.length) : (m.slice off n).length = n := by
  simp [slice]; omega

theorem getElem?_slice {off n j : Nat} (hj : j < n) : (m.slice off n)[j]? = m.data[off + j]? := by
  rw [slice, List.getElem?_take_of_lt hj, List.getElem?_drop]

theorem fits_iff (addr : UInt64) (len : UInt32) :
    ¬ (addr > m.size ∨ len.toUInt64 > m.size - addr) ↔
      addr.toNat + len.toNat ≤ m.data.length := by
  have hs := m.size_toNat
  have hl : len.toUInt64.toNat = len.toNat := by simp
  rw [not_or, gt_iff_lt, gt_iff_lt, UInt64.lt_iff_toNat_lt, UInt64.lt_iff_toNat_lt, hs, hl]
  constructor
  · rintro ⟨h1, h2⟩
    rw [UInt64.toNat_sub_of_le _ _ (by rw [UInt64.le_iff_toNat_le]; omega), hs] at h2
    omega
  · intro h
    rw [UInt64.toNat_sub_of_le _ _ (by rw [UInt64.le_iff_toNat_le]; omega), hs]
    omega

end

/-! ### What an access does -/

section
variable {m : MemoryTlm} {trans : Payload} {buf : List UInt8}

/-- The access lies in the memory, in exact integers. -/
def Fits (m : MemoryTlm) (trans : Payload) : Prop :=
  trans.address.toNat + trans.dataLength.toNat ≤ m.data.length

/-- `b_transport` serves the command. -/
def Allows (m : MemoryTlm) (command : TlmCommand) : Prop :=
  command = .read ∨ command = .write ∧ m.readOnly = false

theorem blit_slice (hb : trans.HasBuffer buf) (hf : m.Fits trans) :
    blit buf 0 (m.slice trans.address.toNat trans.dataLength.toNat) =
      m.slice trans.address.toNat trans.dataLength.toNat := by
  refine blit_all ?_
  rw [length_slice m hf, hb.2]

/-- All `b_transport` can do with a buffer of `data_length` bytes: serve a read, serve a write, or
answer an error and touch nothing. -/
theorem bTransport_cases (hb : trans.HasBuffer buf) (delay : Nat) :
    (m.Fits trans ∧ trans.command = .read ∧ m.bTransport trans delay =
      (m, { trans with
              dataPtr := some (m.slice trans.address.toNat trans.dataLength.toNat)
              dmiAllowed := true
              responseStatus := .ok }, delay + m.accessLatency)) ∨
    (m.Fits trans ∧ trans.command = .write ∧ m.readOnly = false ∧ m.bTransport trans delay =
      (m.store trans.address.toNat buf, { trans with dmiAllowed := true, responseStatus := .ok },
        delay + m.accessLatency)) ∨
    (¬ (m.Fits trans ∧ m.Allows trans.command) ∧ ∃ r, r ≠ .ok ∧ m.bTransport trans delay =
      (m, { trans with responseStatus := r }, delay + m.accessLatency)) := by
  by_cases hf : m.Fits trans
  · have hc := (m.fits_iff trans.address trans.dataLength).2 hf
    cases hcmd : trans.command with
    | read =>
      refine .inl ⟨hf, rfl, ?_⟩
      simp only [bTransport, hc, if_false, hb.1, hcmd, blit_slice hb hf]
    | write =>
      cases hro : m.readOnly with
      | false =>
        refine .inr (.inl ⟨hf, rfl, rfl, ?_⟩)
        simp [bTransport, hc, hb.1, hcmd, hro, ← hb.2]
      | true =>
        refine .inr (.inr ⟨?_, .commandError, by decide, ?_⟩)
        · simp [Allows, hro]
        · simp [bTransport, hc, hb.1, hcmd, hro]
    | ignore =>
      refine .inr (.inr ⟨?_, .commandError, by decide, ?_⟩)
      · simp [Allows]
      · simp [bTransport, hc, hb.1, hcmd]
  · have hc := mt (m.fits_iff trans.address trans.dataLength).1 hf
    exact .inr (.inr ⟨fun h => hf h.1, .addressError, by decide, by
      simp only [bTransport, not_not.1 hc, if_true]⟩)

/-- Whatever the payload, a transaction leaves the memory alone or is one `memcpy` to it. -/
theorem bTransport_fst (m : MemoryTlm) (trans : Payload) (delay : Nat) :
    (m.bTransport trans delay).1 = m ∨ ∃ off src, (m.bTransport trans delay).1 = m.store off src := by
  unfold bTransport
  dsimp only
  split
  · exact .inl rfl
  split
  · exact .inl rfl
  split
  · exact .inl rfl
  · split
    · exact .inl rfl
    · exact .inr ⟨_, _, rfl⟩
  · exact .inl rfl

theorem transportDbg_fst (m : MemoryTlm) (trans : Payload) :
    (m.transportDbg trans).1 = m ∨ ∃ off src, (m.transportDbg trans).1 = m.store off src := by
  unfold transportDbg
  dsimp only
  split
  · exact .inl rfl
  split
  · exact .inl rfl
  split
  · exact .inl rfl
  split
  · exact .inr ⟨_, _, rfl⟩
  · exact .inl rfl

theorem clamp_toNat (m : MemoryTlm) {addr : UInt64} (len : UInt32) (ha : addr.toNat ≤ m.data.length) :
    (stdMin len.toUInt64 (m.size - addr)).toUInt32.toNat = min len.toNat (m.data.length - addr.toNat) := by
  have hl := len.toNat_lt
  have hs : (m.size - addr).toNat = m.data.length - addr.toNat := by
    rw [UInt64.toNat_sub_of_le _ _ (by rw [UInt64.le_iff_toNat_le, size_toNat]; exact ha), size_toNat]
  have hmin : (stdMin len.toUInt64 (m.size - addr)).toNat =
      min len.toNat (m.data.length - addr.toNat) := by
    rw [← hs, stdMin]
    split <;> rename_i h <;> rw [UInt64.lt_iff_toNat_lt, UInt32.toNat_toUInt64] at h
    · omega
    · rw [UInt32.toNat_toUInt64]; omega
  rw [UInt64.toNat_toUInt32, hmin]
  exact Nat.mod_eq_of_lt (by omega)

/-- All `transport_dbg` can do with a write: store what fits of the buffer, or refuse it. -/
theorem transportDbg_write (hb : trans.HasBuffer buf) (hw : trans.command = .write) :
    (trans.address.toNat ≤ m.data.length ∧ m.readOnly = false ∧
      ∃ n : UInt32, n.toNat = min buf.length (m.data.length - trans.address.toNat) ∧
        m.transportDbg trans = (m.store trans.address.toNat (buf.take n.toNat),
          { trans with responseStatus := .ok }, n)) ∨
    (¬ (trans.address.toNat ≤ m.data.length ∧ m.readOnly = false) ∧
      ∃ r, m.transportDbg trans = (m, { trans with responseStatus := r }, 0)) := by
  have hgt : trans.address > m.size ↔ ¬ trans.address.toNat ≤ m.data.length := by
    rw [gt_iff_lt, UInt64.lt_iff_toNat_lt, size_toNat, Nat.not_le]
  by_cases ha : trans.address.toNat ≤ m.data.length
  · have ha' : ¬ trans.address > m.size := fun h => hgt.1 h ha
    cases hro : m.readOnly with
    | false =>
      refine .inl ⟨ha, rfl, (stdMin trans.dataLength.toUInt64 (m.size - trans.address)).toUInt32, ?_, ?_⟩
      · rw [hb.2]; exact m.clamp_toNat trans.dataLength ha
      · simp [transportDbg, hb.1, ha', hw, hro]
    | true =>
      have he : m.transportDbg trans = (m, trans, 0) := by simp [transportDbg, hb.1, ha', hw, hro]
      exact .inr ⟨by simp, trans.responseStatus, he⟩
  · refine .inr ⟨fun h => ha h.1, .addressError, ?_⟩
    simp only [transportDbg, hb.1, hgt.2 ha, if_true]

end

end MemoryTlm
end CdcVp
