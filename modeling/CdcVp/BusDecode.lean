import CdcVp.BusRoute

/-!
# Decoding against exact integers

The containment test of a region wraps when the region ends at the top of the 64-bit space. `FirstAt` is the
index the documentation speaks of, over exact integers; `DecodesExactly` says that `decode` and the transports
follow it. They do wherever that region stops short of the top.
-/

namespace CdcVp
open FirstMatch

namespace BusRouter

/-- Region `i` is the first to hold `x`, in exact integers. -/
structure FirstAt (rgs : List AddressRange) (x i : Nat) (rg : AddressRange) : Prop where
  get : rgs[i]? = some rg
  mem : rg.Mem x
  first : ∀ j < i, ∀ rg', rgs[j]? = some rg' → ¬ rg'.Mem x

/-- Both transports forward `addr` once, to socket `i`, at an address inside the region. -/
structure ForwardsTo (r : BusRouter) (addr : UInt64) (i : Nat) (rg : AddressRange) : Prop where
  decode : r.decode addr = i
  inside : (addr - rg.base).toNat < rg.size.toNat
  blocking {σ : Type} (socket : Nat → BSocket σ) (s : σ) (t : Payload) (d : Nat) : t.address = addr →
    r.bTransport socket s t d =
      let out := socket i s { t with address := addr - rg.base } d
      (out.1, { out.2.1 with address := addr }, out.2.2)
  debug {σ : Type} (socket : Nat → DbgSocket σ) (s : σ) (t : Payload) : t.address = addr →
    r.transportDbg socket s t =
      let out := socket i s { t with address := addr - rg.base }
      (out.1, { out.2.1 with address := addr }, out.2.2)

/-- Neither transport forwards `addr`. -/
structure Rejects (r : BusRouter) (addr : UInt64) : Prop where
  decode : r.decode addr = -1
  blocking {σ : Type} (socket : Nat → BSocket σ) (s : σ) (t : Payload) (d : Nat) : t.address = addr →
    r.bTransport socket s t d = (s, { t with responseStatus := .addressError }, d)
  debug {σ : Type} (socket : Nat → DbgSocket σ) (s : σ) (t : Payload) : t.address = addr →
    r.transportDbg socket s t = (s, { t with responseStatus := .addressError }, 0)

def DisjointRegions (rgs : List AddressRange) : Prop := rgs.Pairwise fun a b => ∀ x, ¬ (a.Mem x ∧ b.Mem x)

/-- Registering disjoint regions with their targets in another order reaches the same target at the same local
address. -/
def OrderFree (r : BusRouter) (addr : UInt64) : Prop :=
  DisjointRegions r.ranges → ∀ {α : Type} (r' : BusRouter) (target target' : Nat → α),
    (bound r.ranges target).Perm (bound r'.ranges target') → r.reached target addr = r'.reached target' addr

structure DecodesExactly (r : BusRouter) (addr : UInt64) : Prop where
  hit (i : Nat) (rg : AddressRange) : FirstAt r.ranges addr.toNat i rg → r.ForwardsTo addr i rg
  miss : (∀ rg ∈ r.ranges, ¬ rg.Mem addr.toNat) → r.Rejects addr
  orderFree : r.OrderFree addr

section
variable {r : BusRouter} {addr : UInt64} {i : Nat} {rg : AddressRange}

theorem not_contains (h : ¬ rg.Mem addr.toNat) : rg.contains addr = false :=
  Bool.eq_false_iff.2 fun hc => h ((rg.contains_iff addr).1 hc).2

theorem DecodesTo.index_le {j : Nat} {rg' : AddressRange} (h : r.DecodesTo addr i rg) (h' : r.DecodesTo addr j rg') :
    i ≤ j := by
  by_contra hlt
  have hno := h.first j (Nat.not_le.1 hlt) rg' h'.get
  rw [h'.contains] at hno
  cases hno

theorem DecodesTo.decode_eq (h : r.DecodesTo addr i rg) : r.decode addr = i := by
  rcases r.decode_cases addr with ⟨j, rg', h', hd⟩ | ⟨hno, -⟩
  · rw [hd, Nat.le_antisymm (h.index_le h') (h'.index_le h)]
  · have := hno rg (List.mem_of_getElem? h.get)
    rw [h.contains] at this
    cases this

theorem FirstAt.decodesTo (h : FirstAt r.ranges addr.toNat i rg) (hl : rg.Live) : r.DecodesTo addr i rg where
  get := h.get
  contains := (rg.contains_iff addr).2 ⟨hl, h.mem⟩
  first j hj rg' hget := not_contains (h.first j hj rg' hget)

/-- A decode to the region's own index needs the region to stop short of the top. -/
theorem FirstAt.live (h : FirstAt r.ranges addr.toNat i rg) (hd : r.decode addr = i) : rg.Live := by
  rcases r.decode_cases addr with ⟨j, rg', h', hd'⟩ | ⟨-, hd'⟩
  · obtain rfl : i = j := by omega
    obtain rfl : rg = rg' := Option.some.inj (h.get.symm.trans h'.get)
    exact ((rg.contains_iff addr).1 h'.contains).1
  · omega

theorem DecodesTo.forwardsTo (h : r.DecodesTo addr i rg) : r.ForwardsTo addr i rg where
  decode := h.decode_eq
  inside := by
    obtain ⟨-, hle, hlt⟩ := (rg.contains_iff addr).1 h.contains
    rw [UInt64.toNat_sub_of_le _ _ (UInt64.le_iff_toNat_le.2 hle)]
    omega
  blocking socket s t d ht := by
    subst ht
    rw [bTransport_eq, reached_of_decodesTo h h.decode_eq]
  debug socket s t ht := by
    subst ht
    rw [transportDbg_eq, reached_of_decodesTo h h.decode_eq]

theorem rejects_of_not_mem (h : ∀ rg ∈ r.ranges, ¬ rg.Mem addr.toNat) : r.Rejects addr := by
  have hd : r.decode addr = -1 := by
    rcases r.decode_cases addr with ⟨j, rg, h', -⟩ | ⟨-, hd⟩
    · exact absurd ((rg.contains_iff addr).1 h'.contains).2 (h rg (List.mem_of_getElem? h'.get))
    · exact hd
  refine ⟨hd, fun socket s t d ht => ?_, fun socket s t ht => ?_⟩
  · subst ht
    rw [bTransport_eq, reached, hd]
    rfl
  · subst ht
    rw [transportDbg_eq, reached, hd]
    rfl

theorem exclusiveAt_table {α : Type*} {rgs : List AddressRange} (h : DisjointRegions rgs) (target : Nat → α)
    (addr : UInt64) : ExclusiveAt (table (bound rgs target)) addr := by
  induction rgs generalizing target with
  | nil => exact List.Pairwise.nil
  | cons rg rgs ih =>
    obtain ⟨hrg, hrgs⟩ := List.pairwise_cons.1 h
    rw [bound_cons]
    refine List.pairwise_cons.2 ⟨?_, ih hrgs _⟩
    rintro f hf ⟨h1, h2⟩
    obtain ⟨e, he, rfl⟩ := List.mem_map.1 hf
    exact hrg e.1 (range_of_mem_bound he) addr.toNat
      ⟨((rg.contains_iff addr).1 h1).2, ((e.1.contains_iff addr).1 h2).2⟩

theorem orderFree (r : BusRouter) (addr : UInt64) : r.OrderFree addr := by
  intro hdisj α r' target target' hperm
  rw [reached_eq, reached_eq, route_perm (exclusiveAt_table hdisj target addr) (hperm.map _)]
  rfl

end

end BusRouter

open BusRouter

/-- `decode` and the transports follow exact integers iff the first region that holds the address, if there is
one, ends below `2 ^ 64`. -/
theorem bus_decode_exact_iff (r : BusRouter) (addr : UInt64) :
    r.DecodesExactly addr ↔
      ∀ i rg, FirstAt r.ranges addr.toNat i rg → rg.base.toNat + rg.size.toNat < 2 ^ 64 := by
  constructor
  · intro h i rg hfirst
    exact hfirst.live (h.hit i rg hfirst).decode
  · intro h
    refine ⟨fun i rg hfirst => ?_, rejects_of_not_mem, r.orderFree addr⟩
    exact (hfirst.decodesTo (h i rg hfirst)).forwardsTo

/-- The last 4096 bytes of the address space. -/
def topBus : BusRouter := ⟨[⟨0xFFFFFFFFFFFFF000, 0x1000⟩], 1, by decide⟩

/-- A region that ends at the top of the space is never decoded. -/
theorem not_decodesExactly_topBus : ¬ ∀ (r : BusRouter) (addr : UInt64),
    (∀ rg ∈ r.ranges, rg.base.toNat + rg.size.toNat ≤ 2 ^ 64 ∧ 0 < rg.size.toNat) → r.DecodesExactly addr := by
  intro h
  have hin : ∀ rg ∈ topBus.ranges, rg.base.toNat + rg.size.toNat ≤ 2 ^ 64 ∧ 0 < rg.size.toNat := by decide
  have hfirst : FirstAt topBus.ranges (0xFFFFFFFFFFFFF800 : UInt64).toNat 0 ⟨0xFFFFFFFFFFFFF000, 0x1000⟩ := by
    refine ⟨rfl, ?_, fun j hj => absurd hj (Nat.not_lt_zero j)⟩
    unfold AddressRange.Mem
    decide
  have hdecode := ((h topBus 0xFFFFFFFFFFFFF800 hin).hit 0 _ hfirst).decode
  revert hdecode
  decide

end CdcVp
