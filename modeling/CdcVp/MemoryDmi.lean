import CdcVp.MemoryDebug
import CdcVp.Runs

/-!
# Direct access to a memory

`getDirectMemPtr` hands out the backing store with a range and a permission, and an initiator that holds them
goes round `b_transport`. `GrantMatches` compares the grant with `b_transport` at one address
(`dmi_grant_iff`), and `machine` is an initiator that mixes the three paths.
-/

namespace CdcVp
open FlatStore Runs

/-! ### `tlm::tlm_dmi` -/

inductive DmiAccess
  | none
  | read
  | write
  | readWrite
deriving DecidableEq, Repr

/-- `tlm::tlm_dmi`. `dmiPtr` is an offset in `data_`, or `none` for a null pointer. -/
structure TlmDmi where
  dmiPtr : Option Nat
  startAddress : UInt64
  endAddress : UInt64
  readLatency : Nat
  writeLatency : Nat
  grantedAccess : DmiAccess
deriving DecidableEq, Repr

namespace TlmDmi

def allowRead (dmi : TlmDmi) : TlmDmi := { dmi with grantedAccess := .read }
def allowReadWrite (dmi : TlmDmi) : TlmDmi := { dmi with grantedAccess := .readWrite }

def isReadAllowed (dmi : TlmDmi) : Prop := dmi.grantedAccess = .read ∨ dmi.grantedAccess = .readWrite
def isWriteAllowed (dmi : TlmDmi) : Prop := dmi.grantedAccess = .write ∨ dmi.grantedAccess = .readWrite

instance (dmi : TlmDmi) : Decidable dmi.isReadAllowed := by unfold isReadAllowed; infer_instance
instance (dmi : TlmDmi) : Decidable dmi.isWriteAllowed := by unfold isWriteAllowed; infer_instance

def InRange (dmi : TlmDmi) (a : UInt64) : Prop := dmi.startAddress ≤ a ∧ a ≤ dmi.endAddress

/-- The `len` bytes from `addr` on, at least one of them, lie in the range. -/
def Spans (dmi : TlmDmi) (addr : UInt64) (len : Nat) : Prop :=
  dmi.startAddress ≤ addr ∧ 0 < len ∧ addr.toNat + len ≤ dmi.endAddress.toNat + 1

instance (dmi : TlmDmi) (a : UInt64) (len : Nat) : Decidable (dmi.Spans a len) := by
  unfold Spans; infer_instance

/-- Where in `data_` the address is. -/
def offset (dmi : TlmDmi) (a : UInt64) : Option Nat := dmi.dmiPtr.map (· + (a - dmi.startAddress).toNat)

end TlmDmi

namespace MemoryTlm

def getDirectMemPtr (m : MemoryTlm) (_trans : Payload) (dmi : TlmDmi) : TlmDmi × Bool :=
  let dmi := { dmi with
    dmiPtr := some 0
    startAddress := 0
    endAddress := if m.data.isEmpty then 0 else m.size - 1
    readLatency := m.accessLatency
    writeLatency := m.accessLatency }
  let dmi := dmi.allowRead
  let dmi := if !m.readOnly then dmi.allowReadWrite else dmi
  (dmi, true)

variable {m m' : MemoryTlm} {trans : Payload} {dmi g : TlmDmi} {a addr : UInt64} {b : UInt8} {delay off len : Nat}
  {command : TlmCommand}

/-- The grant at `a` is what `b_transport` does for one byte there. -/
structure GrantMatches (m : MemoryTlm) (trans : Payload) (dmi : TlmDmi) (a : UInt64) (b : UInt8)
    (delay : Nat) : Prop where
  range : (m.getDirectMemPtr trans dmi).2 = true ∧ (m.getDirectMemPtr trans dmi).1.InRange a ↔
    (m.bTransport (byteAccess .read a b) delay).2.1.responseStatus = .ok
  byte : (m.bTransport (byteAccess .read a b) delay).2.1.responseStatus = .ok →
    ∃ off x, (m.getDirectMemPtr trans dmi).1.offset a = some off ∧ m.data[off]? = some x ∧
      (m.bTransport (byteAccess .read a b) delay).2.1.dataPtr = some [x]
  write : (m.getDirectMemPtr trans dmi).2 = true ∧ (m.getDirectMemPtr trans dmi).1.InRange a ∧
      (m.getDirectMemPtr trans dmi).1.isWriteAllowed ↔
    (m.bTransport (byteAccess .write a b) delay).2.1.responseStatus = .ok

/-! ### The grant and one byte -/

theorem byteAccess_ok_iff : (m.bTransport (byteAccess command addr b) delay).2.1.responseStatus = .ok ↔
    addr.toNat < m.data.length ∧ m.Allows command := by
  rcases bTransport_cases (m := m) (hasBuffer_byteAccess command addr b) delay with
    ⟨hf, hc, he⟩ | ⟨hf, hc, hro, he⟩ | ⟨hno, r, hr, he⟩ <;> rw [he]
  · exact iff_of_true rfl ⟨hf, .inl hc⟩
  · exact iff_of_true rfl ⟨hf, .inr ⟨hc, hro⟩⟩
  · exact iff_of_false hr hno

theorem byteAccess_read (h : addr.toNat < m.data.length) :
    (m.bTransport (byteAccess .read addr b) delay).2.1.dataPtr = some (m.slice addr.toNat 1) := by
  rcases bTransport_cases (m := m) (hasBuffer_byteAccess .read addr b) delay with
    ⟨-, -, he⟩ | ⟨-, hc, -⟩ | ⟨hno, -⟩
  · rw [he]
    rfl
  · cases hc
  · exact absurd ⟨h, .inl rfl⟩ hno

/-- What `getDirectMemPtr` grants, whatever it is handed. -/
structure GrantOf (m : MemoryTlm) (g : TlmDmi) : Prop where
  dmiPtr : g.dmiPtr = some 0
  startAddress : g.startAddress = 0
  endAddress : g.endAddress.toNat = m.data.length - 1
  read : g.isReadAllowed
  write : g.isWriteAllowed ↔ m.readOnly = false

theorem toNat_endAddress (m : MemoryTlm) :
    (if m.data.isEmpty then 0 else m.size - 1).toNat = m.data.length - 1 := by
  cases hd : m.data with
  | nil => rfl
  | cons x d =>
    have hs : m.size.toNat = d.length + 1 := by rw [size_toNat, hd, List.length_cons]
    have hle : (1 : UInt64) ≤ m.size := by
      rw [UInt64.le_iff_toNat_le, hs]
      exact Nat.le_add_left 1 _
    rw [if_neg (by simp), UInt64.toNat_sub_of_le _ _ hle, hs]
    rfl

theorem grantOf_getDirectMemPtr (m : MemoryTlm) (trans : Payload) (dmi : TlmDmi) :
    GrantOf m (m.getDirectMemPtr trans dmi).1 := by
  have hend := m.toNat_endAddress
  cases hro : m.readOnly with
  | false =>
    have he : (m.getDirectMemPtr trans dmi).1 = ⟨some 0, 0, if m.data.isEmpty then 0 else m.size - 1,
        m.accessLatency, m.accessLatency, .readWrite⟩ := by
      rw [getDirectMemPtr, hro]
      rfl
    rw [he]
    exact ⟨rfl, rfl, hend, .inr rfl, iff_of_true (.inr rfl) hro⟩
  | true =>
    have he : (m.getDirectMemPtr trans dmi).1 = ⟨some 0, 0, if m.data.isEmpty then 0 else m.size - 1,
        m.accessLatency, m.accessLatency, .read⟩ := by
      rw [getDirectMemPtr, hro]
      rfl
    rw [he]
    exact ⟨rfl, rfl, hend, .inl rfl, iff_of_false (by rintro (h | h) <;> cases h) (by simp [hro])⟩

theorem GrantOf.inRange_iff (h : GrantOf m g) : g.InRange a ↔ a.toNat ≤ m.data.length - 1 := by
  rw [TlmDmi.InRange, h.startAddress, UInt64.le_iff_toNat_le, UInt64.le_iff_toNat_le, h.endAddress]
  exact and_iff_right (Nat.zero_le _)

theorem GrantOf.offset_eq (h : GrantOf m g) (a : UInt64) : g.offset a = some a.toNat := by
  rw [TlmDmi.offset, h.dmiPtr, h.startAddress, Option.map_some, Nat.zero_add, UInt64.sub_zero]

theorem slice_one (h : off < m.data.length) : ∃ x, m.data[off]? = some x ∧ m.slice off 1 = [x] := by
  refine ⟨m.data[off], List.getElem?_eq_getElem h, ?_⟩
  rw [slice, List.drop_eq_getElem_cons h]
  rfl

/-- The grant agrees with `b_transport` at every address of a memory that has any, and of the empty memory at
every address but 0. -/
theorem grantMatches_iff (m : MemoryTlm) (trans : Payload) (dmi : TlmDmi) (a : UInt64) (b : UInt8) (delay : Nat) :
    GrantMatches m trans dmi a b delay ↔ 0 < m.data.length ∨ a ≠ 0 := by
  have hg := grantOf_getDirectMemPtr m trans dmi
  have hpos : 0 < m.data.length ∨ a ≠ 0 → (a.toNat ≤ m.data.length - 1 ↔ a.toNat < m.data.length) := by
    intro h
    have ha : a ≠ 0 → a.toNat ≠ 0 := fun hne hz => hne (UInt64.toNat_inj.1 hz)
    rcases h with h | h
    · omega
    · have := ha h
      omega
  constructor
  · intro h
    by_contra hno
    obtain ⟨hlen, ha⟩ := not_or.1 hno
    obtain rfl := not_not.1 ha
    have hok := h.range.1 ⟨rfl, hg.inRange_iff.2 (Nat.zero_le _)⟩
    exact hlen (byteAccess_ok_iff.1 hok).1
  · intro h
    constructor
    · rw [byteAccess_ok_iff, hg.inRange_iff, hpos h]
      exact ⟨fun h => ⟨h.2, .inl rfl⟩, fun h => ⟨rfl, h.1⟩⟩
    · intro hok
      obtain ⟨hlt, -⟩ := byteAccess_ok_iff.1 hok
      obtain ⟨x, hx, hs⟩ := slice_one hlt
      exact ⟨a.toNat, x, hg.offset_eq a, hx, by rw [byteAccess_read hlt, hs]⟩
    · rw [byteAccess_ok_iff, hg.inRange_iff, hpos h, hg.write]
      constructor
      · rintro ⟨-, hlt, hro⟩
        exact ⟨hlt, .inr ⟨rfl, hro⟩⟩
      · rintro ⟨hlt, hc | ⟨-, hro⟩⟩
        · cases hc
        · exact ⟨rfl, hlt, hro⟩

/-! ### The grant over accesses -/

/-- The two have one size and permission, and so one grant. -/
structure SameKind (m m' : MemoryTlm) : Prop where
  length : m'.data.length = m.data.length
  readOnly : m'.readOnly = m.readOnly

theorem SameKind.refl (m : MemoryTlm) : SameKind m m := ⟨rfl, rfl⟩

theorem sameKind_store (m : MemoryTlm) (off : Nat) (src : List UInt8) : SameKind m (m.store off src) :=
  ⟨length_store .., store_readOnly ..⟩

theorem GrantOf.congr (h : SameKind m m') (hg : GrantOf m' g) : GrantOf m g where
  dmiPtr := hg.dmiPtr
  startAddress := hg.startAddress
  endAddress := by rw [hg.endAddress, h.length]
  read := hg.read
  write := by rw [hg.write, h.readOnly]

end MemoryTlm

/-! ### An initiator with a grant -/

/-- A memory and the grant that an initiator holds for it. -/
structure DmiPort where
  mem : MemoryTlm
  grant : Option TlmDmi

namespace DmiPort
open MemoryTlm

def new (m : MemoryTlm) : DmiPort := ⟨m, none⟩

/-- A transaction with a buffer of its length. -/
abbrev Buffered := { t : Payload // ∃ buf, t.HasBuffer buf }

inductive Op
  | timed (trans : Buffered) (delay : Nat)
  | debug (trans : Buffered)
  | request (trans : Payload) (dmi : TlmDmi)
  | load (addr : UInt64) (len : Nat)
  | store (addr : UInt64) (src : List UInt8)

/-- What an access of `n` bytes read or wrote: `after` is the transaction as it comes back. -/
def observed (before after : Payload) (n : Nat) : List (StoreAccess UInt8) :=
  match before.command with
  | .read => [.read (before.address.toNat, (after.dataPtr.getD []).take n)]
  | .write => [.wrote (before.address.toNat, (before.dataPtr.getD []).take n)]
  | .ignore => []

/-- Where in `data_` a direct access starts; `none` without a grant for it, or where it leaves `data_`. -/
def direct (s : DmiPort) (allowed : TlmDmi → Prop) [DecidablePred allowed] (addr : UInt64) (len : Nat) : Option Nat :=
  match s.grant with
  | none => none
  | some g =>
    if g.Spans addr len ∧ allowed g then
      (g.offset addr).filter fun off => off + len ≤ s.mem.data.length
    else none

def machine : Machine DmiPort Op (StoreAccess UInt8) := fun s op =>
  match op with
  | .timed t delay =>
    let r := s.mem.bTransport t.1 delay
    let n := if r.2.1.responseStatus = .ok then t.1.dataLength.toNat else 0
    some ({ s with mem := r.1 }, observed t.1 r.2.1 n)
  | .debug t =>
    let r := s.mem.transportDbg t.1
    some ({ s with mem := r.1 }, observed t.1 r.2.1 r.2.2.toNat)
  | .request t dmi =>
    let r := s.mem.getDirectMemPtr t dmi
    some ({ s with grant := if r.2 then some r.1 else s.grant }, [])
  | .load addr len =>
    (s.direct TlmDmi.isReadAllowed addr len).map fun off => (s, [.read (addr.toNat, s.mem.slice off len)])
  | .store addr src =>
    (s.direct TlmDmi.isWriteAllowed addr src.length).map fun off =>
      ({ s with mem := s.mem.store off src }, [.wrote (addr.toNat, src)])

variable {s s' : DmiPort} {op : Op} {o es : List (StoreAccess UInt8)} {is : List Op} {m m' : MemoryTlm}
  {trans : Payload} {buf : List UInt8} {addr : UInt64} {n off : Nat} {src : List UInt8}

/-- The memory as a byte store. -/
def view (m : MemoryTlm) : Store UInt8 := Block.byteAt (0, m.data)

theorem view_store (h : off + src.length ≤ m.data.length) : view (m.store off src) = (view m).write (off, src) := by
  funext x
  rw [view, store_data _ h, byteAt_blit h, Nat.zero_add]
  rfl

/-- The bytes of a slice are those of the store. -/
theorem serves_slice (h : off + n ≤ m.data.length) : Serves (view m) [.read (off, m.slice off n)] (view m) := by
  refine .of_read fun x hx => ?_
  have hlen := length_slice m h
  obtain ⟨h1, h2⟩ := hx
  dsimp only at h1 h2
  rw [hlen] at h2
  rw [Block.byteAt, view, Block.byteAt, if_pos h1, if_pos (Nat.zero_le x), getElem?_slice m (by omega)]
  dsimp only
  congr 1
  omega

theorem serves_store (h : off + src.length ≤ m.data.length) :
    Serves (view m) [.wrote (off, src)] (view (m.store off src)) := .of_wrote (view_store h)

/-- An access that moved no byte leaves the store as it is. -/
theorem serves_observed_zero (m : MemoryTlm) (before after : Payload) :
    Serves (view m) (observed before after 0) (view m) := by
  rw [observed]
  split
  · exact .of_read fun x hx => absurd hx (by simp [Block.Covers])
  · refine .of_wrote (funext fun x => ?_)
    rw [Store.write, Block.byteAt_of_not_covers (by simp [Block.Covers]), Option.none_or]
  · exact .nil _

theorem serves_timed (hb : trans.HasBuffer buf) (delay : Nat) : SameKind m (m.bTransport trans delay).1 ∧
    Serves (view m) (observed trans (m.bTransport trans delay).2.1
      (if (m.bTransport trans delay).2.1.responseStatus = .ok then trans.dataLength.toNat else 0))
      (view (m.bTransport trans delay).1) := by
  rcases bTransport_cases (m := m) hb delay with ⟨hf, hc, he⟩ | ⟨hf, hc, -, he⟩ | ⟨-, r, hr, he⟩ <;> rw [he]
  · refine ⟨.refl m, ?_⟩
    have hlen := length_slice m hf
    rw [if_pos rfl, observed, hc]
    dsimp only
    rw [Option.getD_some, List.take_of_length_le (Nat.le_of_eq hlen)]
    exact serves_slice hf
  · refine ⟨sameKind_store .., ?_⟩
    rw [if_pos rfl, observed, hc]
    dsimp only
    rw [hb.1, Option.getD_some, ← hb.2, List.take_length]
    exact serves_store (by rw [hb.2]; exact hf)
  · rw [if_neg hr]
    exact ⟨.refl m, serves_observed_zero ..⟩

theorem serves_debug (hb : trans.HasBuffer buf) : SameKind m (m.transportDbg trans).1 ∧
    Serves (view m) (observed trans (m.transportDbg trans).2.1 (m.transportDbg trans).2.2.toNat)
      (view (m.transportDbg trans).1) := by
  by_cases hok : trans.address.toNat ≤ m.data.length ∧ m.Allows trans.command
  · obtain ⟨ha, hc | ⟨hc, hro⟩⟩ := hok
    · obtain ⟨n, hn, hd⟩ := transportDbg_read hb hc ha
      rw [room] at hn
      have hfit : trans.address.toNat + n.toNat ≤ m.data.length := by omega
      refine ⟨by rw [hd]; exact .refl m, ?_⟩
      rw [hd, observed, hc]
      dsimp only
      have hlen := length_slice m hfit
      rw [Option.getD_some, List.take_append_of_le_length (Nat.le_of_eq hlen.symm),
        List.take_of_length_le (Nat.le_of_eq hlen)]
      exact serves_slice hfit
    · obtain ⟨-, -, n, hn, hd⟩ | ⟨hno, -⟩ := transportDbg_write (m := m) hb hc
      · refine ⟨by rw [hd]; exact sameKind_store .., ?_⟩
        rw [hd, observed, hc]
        dsimp only
        rw [hb.1, Option.getD_some]
        exact serves_store (by rw [List.length_take]; omega)
      · exact absurd ⟨ha, hro⟩ hno
  · obtain ⟨r, hd⟩ := transportDbg_refused hb hok
    rw [hd]
    exact ⟨.refl m, serves_observed_zero ..⟩

/-! ### The grant over a run -/

/-- Accesses leave the memory's size and kind, and with them the grant. -/
structure Holds (m : MemoryTlm) (s : DmiPort) : Prop where
  kind : SameKind m s.mem
  grant : ∀ g, s.grant = some g → GrantOf m g

theorem Holds.of_mem (h : Holds m s) (hk : SameKind s.mem m') : Holds m { s with mem := m' } :=
  ⟨⟨hk.length.trans h.kind.length, hk.readOnly.trans h.kind.readOnly⟩, h.grant⟩

theorem direct_eq_some {allowed : TlmDmi → Prop} [DecidablePred allowed] (hs : Holds m s)
    (h : s.direct allowed addr n = some off) : off = addr.toNat ∧ off + n ≤ s.mem.data.length := by
  rw [direct] at h
  cases hg : s.grant with
  | none =>
    rw [hg] at h
    cases h
  | some g =>
    rw [hg] at h
    obtain ⟨-, h⟩ := Option.ite_none_right_eq_some.1 h
    rw [(hs.grant g hg).offset_eq, Option.filter_eq_some_iff] at h
    obtain ⟨ho, hle⟩ := h
    exact ⟨(Option.some.inj ho).symm, of_decide_eq_true hle⟩

/-- Within the grant a direct access stays inside `data_`. -/
theorem direct_of_spans {allowed : TlmDmi → Prop} [DecidablePred allowed] {g : TlmDmi} (hs : Holds m s)
    (hpos : 0 < m.data.length) (hg : s.grant = some g) (hspan : g.Spans addr n) (hal : allowed g) :
    s.direct allowed addr n = some addr.toNat := by
  have hgr := hs.grant g hg
  have hend := hspan.2.2
  have hfit : addr.toNat + n ≤ s.mem.data.length := by
    rw [hgr.endAddress] at hend
    rw [hs.kind.length]
    omega
  rw [direct, hg]
  dsimp only
  rw [if_pos ⟨hspan, hal⟩, hgr.offset_eq, Option.filter_eq_some_iff]
  exact ⟨rfl, decide_eq_true hfit⟩

theorem step (hs : Holds m s) (h : machine s op = some (s', o)) :
    Serves (view s.mem) o (view s'.mem) ∧ Holds m s' := by
  cases op with
  | timed t delay =>
    obtain ⟨buf, hb⟩ := t.2
    obtain ⟨hk, hv⟩ := serves_timed (m := s.mem) hb delay
    obtain ⟨rfl, rfl⟩ := Prod.mk.inj (Option.some.inj h)
    exact ⟨hv, hs.of_mem hk⟩
  | debug t =>
    obtain ⟨buf, hb⟩ := t.2
    obtain ⟨hk, hv⟩ := serves_debug (m := s.mem) hb
    obtain ⟨rfl, rfl⟩ := Prod.mk.inj (Option.some.inj h)
    exact ⟨hv, hs.of_mem hk⟩
  | request t dmi =>
    obtain ⟨rfl, rfl⟩ := Prod.mk.inj (Option.some.inj h)
    refine ⟨.nil _, hs.kind, fun g hg => ?_⟩
    obtain rfl : (s.mem.getDirectMemPtr t dmi).1 = g := Option.some.inj hg
    exact (grantOf_getDirectMemPtr s.mem t dmi).congr hs.kind
  | load addr len =>
    obtain ⟨off, hoff, he⟩ := Option.map_eq_some_iff.1 h
    obtain ⟨rfl, rfl⟩ := Prod.mk.inj he
    obtain ⟨rfl, hle⟩ := direct_eq_some hs hoff
    exact ⟨serves_slice hle, hs⟩
  | store addr src =>
    obtain ⟨off, hoff, he⟩ := Option.map_eq_some_iff.1 h
    obtain ⟨rfl, rfl⟩ := Prod.mk.inj he
    obtain ⟨rfl, hle⟩ := direct_eq_some hs hoff
    exact ⟨serves_store hle, hs.of_mem (sameKind_store ..)⟩

/-- Whatever the mix of paths, the initiator sees one byte store. -/
theorem serves_run (h : Run machine (new m) is es s) : Serves (view m) es (view s.mem) ∧ Holds m s := by
  induction h with
  | nil => exact ⟨.nil _, .refl m, fun g hg => by cases hg⟩
  | snoc _ hi ih =>
    obtain ⟨hv, hs⟩ := step ih.2 hi
    exact ⟨ih.1.append hv, hs⟩

end DmiPort

open MemoryTlm DmiPort

/-- The grant is what `b_transport` allows, except at address 0 of the empty memory. Over a run that mixes
timed, debug and direct accesses the memory is one byte store, and within a grant of a memory that is not
empty every direct access can be made. -/
theorem dmi_grant_iff (m : MemoryTlm) :
    (∀ trans dmi a b delay, GrantMatches m trans dmi a b delay ↔ 0 < m.data.length ∨ a ≠ 0) ∧
    ∀ is es s, Run machine (new m) is es s → Serves (view m) es (view s.mem) ∧
      (0 < m.data.length → ∀ g, s.grant = some g → ∀ addr len, g.Spans addr len →
        (g.isReadAllowed → (machine s (.load addr len)).isSome) ∧
        (g.isWriteAllowed → ∀ src, src.length = len → (machine s (.store addr src)).isSome)) := by
  refine ⟨grantMatches_iff m, fun is es s hrun => ?_⟩
  obtain ⟨hserves, hs⟩ := serves_run hrun
  refine ⟨hserves, fun hpos g hg addr len hspan => ⟨fun hal => ?_, fun hal src hlen => ?_⟩⟩
  · rw [machine, direct_of_spans hs hpos hg hspan hal]
    rfl
  · subst hlen
    rw [machine, direct_of_spans hs hpos hg hspan hal]
    rfl

/-- A memory of size 0 grants address 0 and refuses to read it. -/
theorem not_grantMatches_empty : ¬ GrantMatches ⟨[], false, 10000, by decide⟩
    ⟨.read, 0, some [0], 1, .incomplete, false⟩ ⟨none, 0, 0, 0, 0, .none⟩ 0 0 0 := by
  intro h
  have hok := h.range.1 ⟨rfl, by decide, by decide⟩
  revert hok
  decide

end CdcVp
