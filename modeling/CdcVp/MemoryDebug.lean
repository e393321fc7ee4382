import CdcVp.Memory

/-!
# Debug access to a memory

`bytewise` is the debug transport as it is meant: one-byte timed accesses from the address on, up to the
first that is not answered OK. `debug_eq_bytewise` says that `transportDbg`, which checks and clamps once for
the whole buffer, does the same.
-/

namespace CdcVp
open FlatStore

namespace MemoryTlm
variable {m m' : MemoryTlm} {trans : Payload} {buf : List UInt8} {command : TlmCommand} {addr : UInt64}
  {b : UInt8} {off n : Nat}

/-- A timed access to one byte. -/
def byteAccess (command : TlmCommand) (addr : UInt64) (b : UInt8) : Payload where
  command := command
  address := addr
  dataPtr := some [b]
  dataLength := 1

/-- One-byte accesses with the bytes of the buffer, up to the first that is not answered OK: how many were,
the memory after them and the buffer with the bytes they left. -/
def bytewise (m : MemoryTlm) (command : TlmCommand) (addr : UInt64) (delay : Nat) :
    List UInt8 → Nat × MemoryTlm × List UInt8
  | [] => (0, m, [])
  | b :: buf =>
    let r := m.bTransport (byteAccess command addr b) delay
    if r.2.1.responseStatus = .ok then
      let rest := bytewise r.1 command (addr + 1) r.2.2 buf
      (rest.1 + 1, rest.2.1, r.2.1.dataPtr.getD [] ++ rest.2.2)
    else (0, m, b :: buf)

/-- The two agree but for `n` places from `off` on. -/
def AgreeOff (off n : Nat) (d d' : List UInt8) : Prop :=
  d'.length = d.length ∧ ∀ x, ¬ (off ≤ x ∧ x < off + n) → d'[x]? = d[x]?

/-! ### The bytes in reach -/

/-- How many of `len` bytes from `addr` on the memory has. -/
def room (m : MemoryTlm) (addr : UInt64) (len : Nat) : Nat := min len (m.data.length - addr.toNat)

theorem hasBuffer_byteAccess (command : TlmCommand) (addr : UInt64) (b : UInt8) :
    (byteAccess command addr b).HasBuffer [b] := ⟨rfl, rfl⟩

theorem room_zero (h : ¬ addr.toNat < m.data.length) (len : Nat) : m.room addr len = 0 := by
  rw [room]
  omega

theorem toNat_add_one (h : addr.toNat < m.data.length) : (addr + 1).toNat = addr.toNat + 1 := by
  have hm := m.size_lt
  rw [UInt64.toNat_add]
  exact Nat.mod_eq_of_lt (show addr.toNat + 1 < 2 ^ 64 by omega)

/-- A byte in reach leaves room for those after it from the next address on. -/
theorem room_succ (h : addr.toNat < m.data.length) (hl : m'.data.length = m.data.length) (len : Nat) :
    m.room addr (len + 1) = m'.room (addr + 1) len + 1 := by
  rw [room, room, toNat_add_one h, hl]
  omega

theorem slice_succ (m : MemoryTlm) (off n : Nat) : m.slice off (n + 1) = m.slice off 1 ++ m.slice (off + 1) n := by
  rw [slice, slice, slice, Nat.add_comm n 1, List.take_add, List.drop_drop]

theorem eq_of_data (hd : m'.data = m.data) (hr : m'.readOnly = m.readOnly)
    (hl : m'.accessLatency = m.accessLatency) : m' = m := by
  cases m
  cases m'
  cases hd
  cases hr
  cases hl
  rfl

@[simp] theorem store_accessLatency (m : MemoryTlm) (off : Nat) (src : List UInt8) :
    (m.store off src).accessLatency = m.accessLatency := by
  unfold store
  split <;> rfl

theorem store_store {src src' : List UInt8} (h : off + (src ++ src').length ≤ m.data.length) :
    (m.store off src).store (off + src.length) src' = m.store off (src ++ src') := by
  have hlen : off + src.length + src'.length ≤ m.data.length := by
    rw [List.length_append] at h
    omega
  refine eq_of_data ?_ (by simp) (by simp)
  rw [store_data _ (by rw [length_store]; exact hlen), store_data _ (by omega), store_data _ h, blit_blit h]

theorem store_nil (m : MemoryTlm) (off : Nat) : m.store off [] = m := by
  by_cases h : off ≤ m.data.length
  · refine eq_of_data ?_ (by simp) (by simp)
    rw [store_data _ h, blit]
    simp
  · exact dif_neg h

/-! ### Byte after byte -/

theorem bytewise_refused (h : ¬ (addr.toNat < m.data.length ∧ m.Allows command)) (delay : Nat)
    (buf : List UInt8) : m.bytewise command addr delay buf = (0, m, buf) := by
  cases buf with
  | nil => rfl
  | cons b buf =>
    rcases bTransport_cases (m := m) (hasBuffer_byteAccess command addr b) delay with
      ⟨hf, hc, -⟩ | ⟨hf, hc, hro, -⟩ | ⟨-, r, hr, hb⟩
    · exact absurd ⟨hf, .inl hc⟩ h
    · exact absurd ⟨hf, .inr ⟨hc, hro⟩⟩ h
    · rw [bytewise, hb]
      exact if_neg hr

theorem bytewise_read (m : MemoryTlm) (addr : UInt64) (delay : Nat) (buf : List UInt8) :
    m.bytewise .read addr delay buf = (m.room addr buf.length, m,
      m.slice addr.toNat (m.room addr buf.length) ++ buf.drop (m.room addr buf.length)) := by
  induction buf generalizing addr delay with
  | nil => simp [bytewise, room, slice]
  | cons b buf ih =>
    by_cases hlt : addr.toNat < m.data.length
    · have hadd := toNat_add_one hlt
      rcases bTransport_cases (m := m) (hasBuffer_byteAccess .read addr b) delay with
        ⟨-, -, hb⟩ | ⟨-, hc, -⟩ | ⟨hno, -⟩
      · rw [bytewise, hb, if_pos rfl]
        dsimp only
        rw [ih, List.length_cons, room_succ hlt rfl, slice_succ, ← hadd, List.drop_succ_cons, List.append_assoc]
        rfl
      · cases hc
      · exact absurd ⟨hlt, .inl rfl⟩ hno
    · rw [bytewise_refused fun h => hlt h.1, room_zero hlt]
      simp [slice]

theorem bytewise_write (hro : m.readOnly = false) (addr : UInt64) (delay : Nat) (buf : List UInt8) :
    m.bytewise .write addr delay buf =
      (m.room addr buf.length, m.store addr.toNat (buf.take (m.room addr buf.length)), buf) := by
  induction buf generalizing m addr delay with
  | nil => simp [bytewise, room, store_nil]
  | cons b buf ih =>
    by_cases hlt : addr.toNat < m.data.length
    · have hadd := toNat_add_one hlt
      rcases bTransport_cases (m := m) (hasBuffer_byteAccess .write addr b) delay with
        ⟨-, hc, -⟩ | ⟨-, -, -, hb⟩ | ⟨hno, -⟩
      · cases hc
      · rw [bytewise, hb, if_pos rfl]
        dsimp only
        have hl : (m.store addr.toNat [b]).data.length = m.data.length := length_store ..
        rw [ih (by rw [store_readOnly]; exact hro), List.length_cons, room_succ hlt hl, List.take_succ_cons,
          hadd]
        have hfit : addr.toNat +
            ([b] ++ buf.take ((m.store addr.toNat [b]).room (addr + 1) buf.length)).length ≤ m.data.length := by
          rw [List.length_append, List.length_take, List.length_singleton, room, hl, hadd]
          omega
        exact congrArg (Prod.mk _) (Prod.ext (store_store hfit) rfl)
      · exact absurd ⟨hlt, .inr ⟨rfl, hro⟩⟩ hno
    · rw [bytewise_refused fun h => hlt h.1, room_zero hlt, List.take_zero, store_nil]

/-! ### The whole buffer at once -/

theorem address_gt_iff : trans.address > m.size ↔ ¬ trans.address.toNat ≤ m.data.length := by
  rw [gt_iff_lt, UInt64.lt_iff_toNat_lt, size_toNat, Nat.not_le]

theorem transportDbg_read (hb : trans.HasBuffer buf) (hc : trans.command = .read)
    (ha : trans.address.toNat ≤ m.data.length) : ∃ n : UInt32, n.toNat = m.room trans.address buf.length ∧
      m.transportDbg trans = (m, { trans with
        dataPtr := some (m.slice trans.address.toNat n.toNat ++ buf.drop n.toNat), responseStatus := .ok }, n) := by
  have hn := m.clamp_toNat trans.dataLength ha
  refine ⟨(stdMin trans.dataLength.toUInt64 (m.size - trans.address)).toUInt32, by rw [hn, room, hb.2], ?_⟩
  have hlen : (m.slice trans.address.toNat
      (stdMin trans.dataLength.toUInt64 (m.size - trans.address)).toUInt32.toNat).length =
      (stdMin trans.dataLength.toUInt64 (m.size - trans.address)).toUInt32.toNat :=
    length_slice m (by rw [hn]; omega)
  simp only [transportDbg, hb.1, if_neg (mt address_gt_iff.1 (not_not.2 ha)), if_pos hc]
  rw [blit, hlen, List.take_zero, List.nil_append, Nat.zero_add]

theorem transportDbg_refused (hb : trans.HasBuffer buf)
    (h : ¬ (trans.address.toNat ≤ m.data.length ∧ m.Allows trans.command)) :
    ∃ r, m.transportDbg trans = (m, { trans with responseStatus := r }, 0) := by
  by_cases ha : trans.address.toNat ≤ m.data.length
  · have hno : ¬ m.Allows trans.command := fun hal => h ⟨ha, hal⟩
    have hr : trans.command ≠ .read := fun hc => hno (.inl hc)
    have hw : ¬ (trans.command = .write ∧ (!m.readOnly) = true) := fun ⟨hc, hro⟩ =>
      hno (.inr ⟨hc, by simpa using hro⟩)
    have hsame : m.transportDbg trans = (m, trans, 0) := by
      simp only [transportDbg, hb.1, if_neg (mt address_gt_iff.1 (not_not.2 ha)), if_neg hr, if_neg hw]
    exact ⟨trans.responseStatus, hsame⟩
  · refine ⟨.addressError, ?_⟩
    simp only [transportDbg, hb.1, if_pos (address_gt_iff.2 ha)]

/-! ### What is left alone -/

theorem AgreeOff.refl (off n : Nat) (d : List UInt8) : AgreeOff off n d d := ⟨rfl, fun _ _ => rfl⟩

theorem agreeOff_store {src : List UInt8} (h : off + src.length ≤ m.data.length) :
    AgreeOff off src.length m.data (m.store off src).data := by
  refine ⟨length_store .., fun x hx => ?_⟩
  rw [store_data _ h, getElem?_blit h, if_neg hx]

theorem agreeOff_append {src : List UInt8} (h : src.length ≤ buf.length) :
    AgreeOff 0 src.length buf (src ++ buf.drop src.length) := by
  refine ⟨by simp; omega, fun x hx => ?_⟩
  rw [List.getElem?_append_right (by omega), List.getElem?_drop]
  congr 1
  omega

end MemoryTlm

open MemoryTlm

/-- The debug transport does what one-byte timed accesses do up to the first that is not answered OK, whose
number it returns, and touches nothing else. -/
theorem debug_eq_bytewise (m : MemoryTlm) {trans : Payload} {buf : List UInt8} (hb : trans.HasBuffer buf)
    (delay : Nat) : ∃ m' trans' n buf', m.transportDbg trans = (m', trans', n) ∧ trans'.dataPtr = some buf' ∧
      m.bytewise trans.command trans.address delay buf = (n.toNat, m', buf') ∧
      AgreeOff trans.address.toNat n.toNat m.data m'.data ∧ AgreeOff 0 n.toNat buf buf' := by
  by_cases hok : trans.address.toNat ≤ m.data.length ∧ m.Allows trans.command
  · obtain ⟨ha, hc | ⟨hc, hro⟩⟩ := hok
    · obtain ⟨n, hn, hd⟩ := transportDbg_read hb hc ha
      have hlen : (m.slice trans.address.toNat n.toNat).length = n.toNat :=
        length_slice m (by rw [hn, room]; omega)
      refine ⟨_, _, _, _, hd, rfl, ?_, .refl .., ?_⟩
      · rw [hc, bytewise_read, hn]
      · have hle : (m.slice trans.address.toNat n.toNat).length ≤ buf.length := by
          rw [hlen, hn, room]
          omega
        have := agreeOff_append hle
        rwa [hlen] at this
    · obtain ⟨-, -, n, hn, hd⟩ | ⟨hno, -⟩ := transportDbg_write (m := m) hb hc
      · have hlen : (buf.take n.toNat).length = n.toNat := List.length_take_of_le (by omega)
        refine ⟨_, _, _, _, hd, hb.1, ?_, ?_, .refl ..⟩
        · rw [hc, bytewise_write hro, hn, room]
        · have hfit : trans.address.toNat + (buf.take n.toNat).length ≤ m.data.length := by
            rw [hlen]
            omega
          have := agreeOff_store hfit
          rwa [hlen] at this
      · exact absurd ⟨ha, hro⟩ hno
  · obtain ⟨r, hd⟩ := transportDbg_refused hb hok
    refine ⟨_, _, _, _, hd, hb.1, ?_, .refl .., .refl ..⟩
    exact bytewise_refused (fun h => hok ⟨Nat.le_of_lt h.1, h.2⟩) delay buf

/-- A debug read that starts inside the memory and ends past it. -/
theorem debug_eq_bytewise_tail :
    let m : MemoryTlm := ⟨[1, 2, 3], false, 10000, by decide⟩
    let trans : Payload := ⟨.read, 1, some [9, 9, 9, 9], 4, .incomplete, false⟩
    ∃ m' trans' n buf', m.transportDbg trans = (m', trans', n) ∧ trans'.dataPtr = some buf' ∧
      m.bytewise .read 1 0 [9, 9, 9, 9] = (n.toNat, m', buf') ∧
      AgreeOff 1 n.toNat [1, 2, 3] m'.data ∧ AgreeOff 0 n.toNat [9, 9, 9, 9] buf' :=
  debug_eq_bytewise ⟨[1, 2, 3], false, 10000, by decide⟩ ⟨rfl, rfl⟩ 0

end CdcVp
