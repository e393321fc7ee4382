import CdcVp.Tlm
import Mathlib.Algebra.Group.Nat.Defs
import Mathlib.Tactic.Common

/-!
# `bus_router`

First-match address decoding over a list of half-open regions. The targets are a parameter: socket
`i` is whatever transport function is bound there, so the router serves memories, peripherals and
other routers alike. `contains_iff` reads the 64-bit containment test in exact integers.
-/

namespace CdcVp

/-- `common::address_range`, the half-open region `[base, base + size)`. -/
structure AddressRange where
  base : UInt64 := 0
  size : UInt64 := 0
deriving DecidableEq, Repr, Inhabited

namespace AddressRange

def contains (r : AddressRange) (addr : UInt64) : Bool := addr ≥ r.base && addr < r.base + r.size

def Mem (r : AddressRange) (x : Nat) : Prop := r.base.toNat ≤ x ∧ x < r.base.toNat + r.size.toNat

def Live (r : AddressRange) : Prop := r.base.toNat + r.size.toNat < 2 ^ 64

/-- The test computes modulo `2 ^ 64`, so a region that reaches `2 ^ 64` contains nothing. -/
theorem contains_iff (r : AddressRange) (addr : UInt64) :
    r.contains addr = true ↔ r.Live ∧ r.Mem addr.toNat := by
  have ha := addr.toNat_lt
  have hb := r.base.toNat_lt
  have hs := r.size.toNat_lt
  simp only [contains, Bool.and_eq_true, decide_eq_true_eq, ge_iff_le, UInt64.le_iff_toNat_le,
    UInt64.lt_iff_toNat_lt, UInt64.toNat_add, Live, Mem]
  omega

end AddressRange

/-- `bus_router`: `sockets` is `sockets_.size()`. -/
structure BusRouter where
  ranges : List AddressRange
  sockets : Nat
  ranges_le : ranges.length ≤ sockets

namespace BusRouter

def new (numTargets : Nat) : BusRouter := ⟨[], numTargets, Nat.zero_le _⟩

/-- `bus_router::add_target`; the result is the index of the socket to bind. -/
def addTarget (r : BusRouter) (base size : UInt64) : Except String (Nat × BusRouter) :=
  if h : r.ranges.length ≥ r.sockets then .error "bus_router::add_target exceeds num_targets"
  else .ok (r.ranges.length, { r with
    ranges := r.ranges ++ [⟨base, size⟩]
    ranges_le := by simp; omega })

theorem addTarget_all (a : BusRouter) (rgs : List AddressRange) (h : (a.ranges ++ rgs).length ≤ a.sockets) :
    rgs.foldlM (fun r rg => (r.addTarget rg.base rg.size).map Prod.snd) a =
      .ok ⟨a.ranges ++ rgs, a.sockets, h⟩ := by
  induction rgs generalizing a with
  | nil => simp [pure, Except.pure]
  | cons rg rgs ih =>
    have hlt : ¬ a.ranges.length ≥ a.sockets := by
      rw [List.length_append, List.length_cons] at h
      omega
    have hnext : (a.ranges ++ [rg] ++ rgs).length ≤ a.sockets := by rwa [List.append_assoc]
    rw [List.foldlM_cons, addTarget, dif_neg hlt]
    have hle : (a.ranges ++ [rg]).length ≤ a.sockets := by
      rw [List.length_append] at hnext
      omega
    refine (ih ⟨a.ranges ++ [rg], a.sockets, hle⟩ hnext).trans ?_
    simp only [List.append_assoc, List.singleton_append]

/-- Every router is what its `add_target` calls make of a new one. -/
theorem addTarget_ranges (r : BusRouter) :
    r.ranges.foldlM (fun r rg => (r.addTarget rg.base rg.size).map Prod.snd) (new r.sockets) = .ok r :=
  addTarget_all (new r.sockets) r.ranges r.ranges_le

/-- `bus_router::decode`: the index of the first region containing `addr`, or `-1`. An `int` holds
every index, a router having far fewer than `2 ^ 31` sockets. -/
def decode (r : BusRouter) (addr : UInt64) : Int :=
  match r.ranges.findIdx? fun rg => rg.contains addr with
  | some i => i
  | none => -1

section
variable {σ : Type*}

def bTransport (r : BusRouter) (socket : Nat → BSocket σ) : BSocket σ := fun s trans delay =>
  let addr := trans.address
  let idx := r.decode addr
  if idx < 0 then (s, { trans with responseStatus := .addressError }, delay)
  else
    let (s, trans, delay) :=
      socket idx.toNat s { trans with address := addr - r.ranges[idx.toNat]!.base } delay
    (s, { trans with address := addr }, delay)

def transportDbg (r : BusRouter) (socket : Nat → DbgSocket σ) : DbgSocket σ := fun s trans =>
  let addr := trans.address
  let idx := r.decode addr
  if idx < 0 then (s, { trans with responseStatus := .addressError }, 0)
  else
    let (s, trans, n) :=
      socket idx.toNat s { trans with address := addr - r.ranges[idx.toNat]!.base }
    (s, { trans with address := addr }, n)

/-- The region at index `i` is the first that contains `addr`. -/
structure DecodesTo (r : BusRouter) (addr : UInt64) (i : Nat) (rg : AddressRange) : Prop where
  get : r.ranges[i]? = some rg
  contains : rg.contains addr = true
  first : ∀ j < i, ∀ rg', r.ranges[j]? = some rg' → rg'.contains addr = false

theorem decode_cases (r : BusRouter) (addr : UInt64) :
    (∃ i rg, r.DecodesTo addr i rg ∧ r.decode addr = i) ∨
      ((∀ rg ∈ r.ranges, rg.contains addr = false) ∧ r.decode addr = -1) := by
  cases h : r.ranges.findIdx? fun rg => rg.contains addr with
  | some i =>
    obtain ⟨hi, hc, hf⟩ := List.findIdx?_eq_some_iff_getElem.1 h
    refine .inl ⟨i, r.ranges[i], ⟨List.getElem?_eq_getElem hi, hc, fun j hj rg' hrg => ?_⟩, ?_⟩
    · obtain ⟨hj', rfl⟩ := List.getElem?_eq_some_iff.1 hrg
      simpa using hf j hj
    · simp [decode, h]
  | none =>
    refine .inr ⟨fun rg hrg => ?_, by simp [decode, h]⟩
    simpa using List.findIdx?_eq_none_iff.1 h rg hrg

variable {r : BusRouter} {trans : Payload} {i : Nat} {rg : AddressRange}

theorem DecodesTo.base (h : r.DecodesTo trans.address i rg) : r.ranges[i]!.base = rg.base := by
  rw [List.getElem!_eq_getElem?_getD, h.get]; rfl

/-- A blocking transaction is forwarded once, to the first region that contains its address, or
answered with an address error. -/
theorem bTransport_cases (r : BusRouter) (socket : Nat → BSocket σ) (s : σ) (trans : Payload) (delay : Nat) :
    (∃ i rg, r.DecodesTo trans.address i rg ∧
      r.bTransport socket s trans delay =
        let out := socket i s { trans with address := trans.address - rg.base } delay
        (out.1, { out.2.1 with address := trans.address }, out.2.2)) ∨
    ((∀ rg ∈ r.ranges, rg.contains trans.address = false) ∧
      r.bTransport socket s trans delay =
        (s, { trans with responseStatus := .addressError }, delay)) := by
  rcases r.decode_cases trans.address with ⟨i, rg, h, hd⟩ | ⟨h, hd⟩
  · have hneg : ¬ (i : Int) < 0 := by omega
    refine .inl ⟨i, rg, h, ?_⟩
    simp only [bTransport, hd, hneg, if_false, Int.toNat_natCast, h.base]
  · exact .inr ⟨h, by simp [bTransport, hd]⟩

theorem transportDbg_cases (r : BusRouter) (socket : Nat → DbgSocket σ) (s : σ) (trans : Payload) :
    (∃ i rg, r.DecodesTo trans.address i rg ∧
      r.transportDbg socket s trans =
        let out := socket i s { trans with address := trans.address - rg.base }
        (out.1, { out.2.1 with address := trans.address }, out.2.2)) ∨
    ((∀ rg ∈ r.ranges, rg.contains trans.address = false) ∧
      r.transportDbg socket s trans = (s, { trans with responseStatus := .addressError }, 0)) := by
  rcases r.decode_cases trans.address with ⟨i, rg, h, hd⟩ | ⟨h, hd⟩
  · have hneg : ¬ (i : Int) < 0 := by omega
    refine .inl ⟨i, rg, h, ?_⟩
    simp only [transportDbg, hd, hneg, if_false, Int.toNat_natCast, h.base]
  · exact .inr ⟨h, by simp [transportDbg, hd]⟩

end

end BusRouter
end CdcVp
