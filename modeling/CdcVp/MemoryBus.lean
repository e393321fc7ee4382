import CdcVp.BusRouter
import CdcVp.Memory

/-!
# A router with a memory behind every socket

`flat r mems` is the memory an initiator sees: one byte store over global addresses. With regions that
do not meet (`Bound`), a transaction is a read or a write of that store or changes nothing
(`bTransport_cases`, `transportDbg_write`), whichever memory serves it and whatever its translated
address.
-/

namespace CdcVp
open FlatStore

namespace MemoryBus

/-- Socket `i` of the router, bound to the `i`-th memory. -/
def socket (i : Nat) : BSocket (List MemoryTlm) := fun mems trans delay =>
  match mems[i]? with
  | some m =>
    let (m, trans, delay) := m.bTransport trans delay
    (mems.set i m, trans, delay)
  | none => (mems, trans, delay)

def dbgSocket (i : Nat) : DbgSocket (List MemoryTlm) := fun mems trans =>
  match mems[i]? with
  | some m =>
    let (m, trans, n) := m.transportDbg trans
    (mems.set i m, trans, n)
  | none => (mems, trans, 0)

/-- The memories as blocks of global addresses. -/
def blocks (r : BusRouter) (mems : List MemoryTlm) : List (Block UInt8) :=
  List.zipWith (fun rg m => (rg.base.toNat, m.data)) r.ranges mems

/-- What an initiator sees at each global address. -/
def flat (r : BusRouter) (mems : List MemoryTlm) : Store UInt8 := ofBlocks (blocks r mems)

/-- Every region is bound to a memory of its size, and no two regions meet. -/
structure Bound (r : BusRouter) (mems : List MemoryTlm) : Prop where
  sizes : mems.map (fun m => m.data.length) = r.ranges.map (fun rg => rg.size.toNat)
  apart : r.ranges.Pairwise fun a b => ∀ x, ¬ (a.Mem x ∧ b.Mem x)

/-- The access of `trans` lies in region `i`, whole. -/
structure Hit (r : BusRouter) (mems : List MemoryTlm) (trans : Payload) (i : Nat)
    (rg : AddressRange) (m : MemoryTlm) : Prop where
  range : r.ranges[i]? = some rg
  mem : mems[i]? = some m
  live : rg.Live
  inside : rg.Mem trans.address.toNat
  span : trans.address.toNat + trans.dataLength.toNat ≤ rg.base.toNat + rg.size.toNat

/-- The access lies in one region whose memory allows the command. -/
def Served (r : BusRouter) (mems : List MemoryTlm) (trans : Payload) : Prop :=
  ∃ i rg m, Hit r mems trans i rg m ∧ m.Allows trans.command

section
variable {r : BusRouter} {mems : List MemoryTlm} {trans : Payload} {buf : List UInt8}
  {i : Nat} {rg : AddressRange} {m : MemoryTlm}

theorem set_getElem?_self {α : Type*} {l : List α} {a : α} (h : l[i]? = some a) : l.set i a = l := by
  obtain ⟨hi, rfl⟩ := List.getElem?_eq_some_iff.1 h
  exact List.set_getElem_self hi

theorem map_set_self {α γ : Type*} {l : List α} {a a' : α} (f : α → γ) (h : l[i]? = some a) (hf : f a' = f a) :
    (l.set i a').map f = l.map f := by
  rw [List.map_set, hf]
  exact set_getElem?_self (by rw [List.getElem?_map, h]; rfl)

namespace Bound

theorem mem (h : Bound r mems) (hr : r.ranges[i]? = some rg) :
    ∃ m, mems[i]? = some m ∧ m.data.length = rg.size.toNat := by
  have hs := congrArg (fun l => l[i]?) h.sizes
  simp only [List.getElem?_map, hr, Option.map_some, Option.map_eq_some_iff] at hs
  exact hs

theorem length (h : Bound r mems) (hr : r.ranges[i]? = some rg) (hm : mems[i]? = some m) :
    m.data.length = rg.size.toNat := by
  obtain ⟨m', hm', hl⟩ := h.mem hr
  obtain rfl : m = m' := Option.some.inj (hm.symm.trans hm')
  exact hl

theorem store (h : Bound r mems) (hm : mems[i]? = some m) (off : Nat) (src : List UInt8) :
    Bound r (mems.set i (m.store off src)) := by
  refine ⟨?_, h.apart⟩
  rw [← h.sizes]
  exact map_set_self _ hm (m.length_store off src)

theorem eq_of_mem {j x : Nat} {rg' : AddressRange} (h : Bound r mems) (hr : r.ranges[i]? = some rg)
    (hr' : r.ranges[j]? = some rg') (hx : rg.Mem x) (hy : rg'.Mem x) : i = j := by
  obtain ⟨hi, rfl⟩ := List.getElem?_eq_some_iff.1 hr
  obtain ⟨hj, rfl⟩ := List.getElem?_eq_some_iff.1 hr'
  rcases Nat.lt_trichotomy i j with hij | hij | hij
  · exact absurd ⟨hx, hy⟩ (List.pairwise_iff_getElem.1 h.apart i j hi hj hij x)
  · exact hij
  · exact absurd ⟨hy, hx⟩ (List.pairwise_iff_getElem.1 h.apart j i hj hi hij x)

theorem blocks_getElem? (hr : r.ranges[i]? = some rg) (hm : mems[i]? = some m) :
    (blocks r mems)[i]? = some (rg.base.toNat, m.data) := by
  simp [blocks, List.getElem?_zipWith, hr, hm]

theorem covers_iff (h : Bound r mems) (hr : r.ranges[i]? = some rg) (hm : mems[i]? = some m)
    (x : Nat) : Block.Covers (rg.base.toNat, m.data) x ↔ rg.Mem x := by
  simp [Block.Covers, AddressRange.Mem, h.length hr hm]

theorem apart_blocks (h : Bound r mems) : Apart (blocks r mems) := by
  refine List.pairwise_iff_getElem.2 ?_
  intro j k hj hk hjk x hx
  have hlen : r.ranges.length = mems.length := by
    simpa using (congrArg List.length h.sizes).symm
  simp only [blocks, List.length_zipWith, hlen, Nat.min_self] at hj hk
  simp only [blocks, List.getElem_zipWith] at hx
  have hj' := List.getElem?_eq_getElem (l := r.ranges) (i := j) (by omega)
  have hk' := List.getElem?_eq_getElem (l := r.ranges) (i := k) (by omega)
  rw [h.covers_iff hj' (List.getElem?_eq_getElem hj), h.covers_iff hk' (List.getElem?_eq_getElem hk)]
    at hx
  have := h.eq_of_mem hj' hk' hx.1 hx.2
  omega

theorem flat_of_mem (h : Bound r mems) (hr : r.ranges[i]? = some rg) (hm : mems[i]? = some m)
    {x : Nat} (hx : rg.Mem x) : flat r mems x = m.data[x - rg.base.toNat]? := by
  rw [flat, ofBlocks_of_covers h.apart_blocks (blocks_getElem? hr hm) ((h.covers_iff hr hm x).2 hx)]
  simp [Block.byteAt, hx.1]

/-- A store into one memory is a write of the flat store. -/
theorem flat_store (h : Bound r mems) (hr : r.ranges[i]? = some rg) (hm : mems[i]? = some m)
    {off : Nat} {src : List UInt8} (hf : off + src.length ≤ m.data.length) :
    flat r (mems.set i (m.store off src)) =
      (flat r mems).write (rg.base.toNat + off, src) := by
  rw [flat, flat, ← ofBlocks_set_blit h.apart_blocks (blocks_getElem? hr hm) hf, blocks]
  congr 1
  refine List.ext_getElem? ?_
  intro j
  rw [List.getElem?_zipWith, List.getElem?_set, List.getElem?_set]
  by_cases hij : i = j
  · subst hij
    obtain ⟨hi, rfl⟩ := List.getElem?_eq_some_iff.1 hm
    obtain ⟨hi', rfl⟩ := List.getElem?_eq_some_iff.1 hr
    have hlt : i < min r.ranges.length mems.length := Nat.lt_min.2 ⟨hi', hi⟩
    simp [blocks, hi, hi', hlt, MemoryTlm.store_data _ hf]
  · simp [blocks, hij, List.getElem?_zipWith]

end Bound

/-! ### One transaction -/

theorem translated (hx : rg.Mem trans.address.toNat) :
    (trans.address - rg.base).toNat = trans.address.toNat - rg.base.toNat :=
  UInt64.toNat_sub_of_le _ _ (UInt64.le_iff_toNat_le.2 hx.1)

/-- The memory's bounds check on the translated address, read on the global one. -/
theorem fits_translated (h : Bound r mems) (hr : r.ranges[i]? = some rg) (hm : mems[i]? = some m)
    (hx : rg.Mem trans.address.toNat) :
    m.Fits { trans with address := trans.address - rg.base } ↔
      trans.address.toNat + trans.dataLength.toNat ≤ rg.base.toNat + rg.size.toNat := by
  have := hx.1
  show (trans.address - rg.base).toNat + trans.dataLength.toNat ≤ m.data.length ↔ _
  rw [translated hx, h.length hr hm]
  omega

theorem Served.of_decodesTo (h : Bound r mems) (hd : r.DecodesTo trans.address i rg)
    (hm : mems[i]? = some m) (hs : Served r mems trans) :
    Hit r mems trans i rg m ∧ m.Allows trans.command := by
  obtain ⟨j, rg', m', hit, ha⟩ := hs
  obtain rfl := h.eq_of_mem hd.get hit.range ((rg.contains_iff _).1 hd.contains).2 hit.inside
  obtain rfl : rg' = rg := Option.some.inj (hit.range.symm.trans hd.get)
  obtain rfl : m' = m := Option.some.inj (hit.mem.symm.trans hm)
  exact ⟨hit, ha⟩

theorem not_served (hno : ∀ rg ∈ r.ranges, rg.contains trans.address = false) :
    ¬ Served r mems trans := by
  rintro ⟨i, rg, m, hit, -⟩
  have hc := (rg.contains_iff trans.address).2 ⟨hit.live, hit.inside⟩
  rw [hno rg (List.mem_of_getElem? hit.range)] at hc
  exact Bool.noConfusion hc

/-- All a blocking transaction can do: serve a read, serve a write in one memory, or answer an error
and touch nothing. -/
theorem bTransport_cases (h : Bound r mems) (hb : trans.HasBuffer buf) (delay : Nat) :
    (∃ i rg m delay', Hit r mems trans i rg m ∧ trans.command = .read ∧
      r.bTransport socket mems trans delay =
        (mems, { trans with
                  dataPtr := some (m.slice (trans.address.toNat - rg.base.toNat) trans.dataLength.toNat)
                  dmiAllowed := true
                  responseStatus := .ok }, delay')) ∨
    (∃ i rg m delay', Hit r mems trans i rg m ∧ trans.command = .write ∧ m.readOnly = false ∧
      r.bTransport socket mems trans delay =
        (mems.set i (m.store (trans.address.toNat - rg.base.toNat) buf),
          { trans with dmiAllowed := true, responseStatus := .ok }, delay')) ∨
    (¬ Served r mems trans ∧ ∃ st delay', st ≠ .ok ∧
      r.bTransport socket mems trans delay = (mems, { trans with responseStatus := st }, delay')) := by
  rcases r.bTransport_cases socket mems trans delay with
    ⟨i, rg, hd, ht⟩ | ⟨hno, ht⟩
  · obtain ⟨hlive, hin⟩ := (rg.contains_iff _).1 hd.contains
    obtain ⟨m, hm, -⟩ := h.mem hd.get
    have hit (hf : m.Fits { trans with address := trans.address - rg.base }) :
        Hit r mems trans i rg m := ⟨hd.get, hm, hlive, hin, (fits_translated h hd.get hm hin).1 hf⟩
    have hb' : Payload.HasBuffer { trans with address := trans.address - rg.base } buf := hb
    rcases m.bTransport_cases hb' delay with ⟨hf, hc, he⟩ | ⟨hf, hc, hro, he⟩ | ⟨hn, st, hst, he⟩
    · refine .inl ⟨i, rg, m, delay + m.accessLatency, hit hf, hc, ?_⟩
      simp only [ht, socket, hm, he, set_getElem?_self hm, translated hin]
    · refine .inr (.inl ⟨i, rg, m, delay + m.accessLatency, hit hf, hc, hro, ?_⟩)
      simp only [ht, socket, hm, he, translated hin]
    · refine .inr (.inr ⟨fun hs => hn ?_, st, delay + m.accessLatency, hst, ?_⟩)
      · obtain ⟨hit, ha⟩ := Served.of_decodesTo h hd hm hs
        exact ⟨(fits_translated h hd.get hm hin).2 hit.span, ha⟩
      · simp only [ht, socket, hm, he, set_getElem?_self hm]
  · exact .inr (.inr ⟨not_served hno, .addressError, delay, by decide, ht⟩)

/-- A backdoor write of at least one byte: the whole buffer is stored in one RAM and all of it counted,
or the count falls short. -/
theorem transportDbg_write (h : Bound r mems) (hb : trans.HasBuffer buf)
    (hw : trans.command = .write) (hpos : 0 < buf.length) :
    (∃ i rg m, Hit r mems trans i rg m ∧ m.readOnly = false ∧
      r.transportDbg dbgSocket mems trans =
        (mems.set i (m.store (trans.address.toNat - rg.base.toNat) buf),
          { trans with responseStatus := .ok }, trans.dataLength)) ∨
    (¬ Served r mems trans ∧ (r.transportDbg dbgSocket mems trans).2.2 ≠ trans.dataLength) := by
  have hlen := hb.2
  have hzero : (0 : UInt32) ≠ trans.dataLength := by
    intro h0; rw [← h0] at hlen; simp at hlen; simp [hlen] at hpos
  rcases r.transportDbg_cases dbgSocket mems trans with ⟨i, rg, hd, ht⟩ | ⟨hno, ht⟩
  · obtain ⟨hlive, hin⟩ := (rg.contains_iff _).1 hd.contains
    obtain ⟨m, hm, hml⟩ := h.mem hd.get
    have hb' : Payload.HasBuffer { trans with address := trans.address - rg.base } buf := hb
    have hfit : m.Fits { trans with address := trans.address - rg.base } ↔ _ :=
      fits_translated h hd.get hm hin
    rcases m.transportDbg_write hb' hw with ⟨ha, hro, n, hn, he⟩ | ⟨hn, st, he⟩
    · dsimp only at ha hn
      by_cases hf : trans.address.toNat + trans.dataLength.toNat ≤ rg.base.toNat + rg.size.toNat
      · refine .inl ⟨i, rg, m, ⟨hd.get, hm, hlive, hin, hf⟩, hro, ?_⟩
        have hn' : n = trans.dataLength := by
          apply UInt32.toNat_inj.1
          have := hin.1
          rw [hn, translated hin, hlen, hml]; omega
        simp only [ht, dbgSocket, hm, he, translated hin, hn', ← hlen, List.take_length]
      · refine .inr ⟨fun hs => hf (Served.of_decodesTo h hd hm hs).1.span, ?_⟩
        simp only [ht, dbgSocket, hm, he]
        intro hn'
        have := hin.1
        rw [hn', translated hin, hlen, hml] at hn
        omega
    · refine .inr ⟨fun hs => hn ?_, ?_⟩
      · obtain ⟨hit, ha⟩ := Served.of_decodesTo h hd hm hs
        have := hfit.2 hit.span
        rw [MemoryTlm.Fits] at this
        dsimp only at this ⊢
        exact ⟨by omega, by simpa [MemoryTlm.Allows, hw] using ha⟩
      · simpa only [ht, dbgSocket, hm, he] using hzero
  · exact .inr ⟨not_served hno, by simpa only [ht] using hzero⟩

end
end MemoryBus
end CdcVp
