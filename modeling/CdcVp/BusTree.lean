import CdcVp.BusRoute
import Mathlib.Logic.Function.Basic

/-!
# A router behind a router

`flatten` replaces a region of the parent by the regions of the child bound there, each shifted by the base of
the region and clipped to it. `reached_flatten` and `reached_update` say that two look-ups, each with its
subtraction, reach what one look-up in the flat table reaches.
-/

namespace CdcVp
open FirstMatch

namespace BusRouter

/-- A region in the window `w`, seen from outside: shifted by the base of `w` and clipped to `w`. -/
def clip (w rg : AddressRange) : AddressRange where
  base := UInt64.ofNat (w.base.toNat + min rg.base.toNat w.size.toNat)
  size := UInt64.ofNat (min (rg.base.toNat + rg.size.toNat) w.size.toNat - min rg.base.toNat w.size.toNat)

/-- The parent with the child's regions in the place of region `k`. -/
def flatten (parent child : BusRouter) (k : Fin parent.ranges.length) : BusRouter where
  ranges := parent.ranges.take k ++ child.ranges.map (clip parent.ranges[k]) ++ parent.ranges.drop (k + 1)
  sockets := parent.sockets - 1 + child.sockets
  ranges_le := by
    have hp := parent.ranges_le
    have hc := child.ranges_le
    have hk := k.isLt
    simp only [List.length_append, List.length_take, List.length_map, List.length_drop]
    omega

/-- What is bound to the sockets of the flat router: `m` targets of the child in the place of target `k`. -/
def splice {α : Type*} (k m : Nat) (outer inner : Nat → α) (j : Nat) : α :=
  if j < k then outer j else if j < k + m then inner (j - k) else outer (j - m + 1)

section
variable {α : Type*} {w rg : AddressRange} {addr : UInt64} {parent child : BusRouter}
  {k : Fin parent.ranges.length} {outer inner : Nat → α}

theorem clip_toNat (hw : w.Live) (rg : AddressRange) :
    (clip w rg).base.toNat = w.base.toNat + min rg.base.toNat w.size.toNat ∧
      (clip w rg).size.toNat =
        min (rg.base.toNat + rg.size.toNat) w.size.toNat - min rg.base.toNat w.size.toNat := by
  have := hw
  unfold AddressRange.Live at this
  constructor
  · rw [clip, UInt64.toNat_ofNat', Nat.mod_eq_of_lt (by omega)]
  · rw [clip, UInt64.toNat_ofNat', Nat.mod_eq_of_lt (by omega)]

theorem toNat_local (h : w.contains addr = true) : (addr - w.base).toNat = addr.toNat - w.base.toNat :=
  UInt64.toNat_sub_of_le _ _ (UInt64.le_iff_toNat_le.2 ((w.contains_iff addr).1 h).2.1)

theorem sub_add_local (a b c : UInt64) : a - (b + c) = a - b - c :=
  UInt64.toBitVec_inj.1 (BitVec.sub_sub _ _ _).symm

/-- The clipped region takes what the window passes on to the region. -/
theorem clip_contains (hw : w.Live) (hrg : rg.Live) (addr : UInt64) :
    (clip w rg).contains addr = true ↔ w.contains addr = true ∧ rg.contains (addr - w.base) = true := by
  obtain ⟨hb, hs⟩ := clip_toNat hw rg
  have hwl := hw
  have hrl := hrg
  unfold AddressRange.Live at hwl hrl
  by_cases hc : w.contains addr = true
  · have hin := ((w.contains_iff addr).1 hc).2
    have hl := toNat_local hc
    rw [(clip w rg).contains_iff, rg.contains_iff, AddressRange.Live, AddressRange.Mem, AddressRange.Mem,
      hb, hs, hl]
    unfold AddressRange.Mem at hin
    simp only [hc, hrg, true_and]
    omega
  · have hout : ¬ w.Mem addr.toNat := fun h => hc ((w.contains_iff addr).2 ⟨hw, h⟩)
    rw [(clip w rg).contains_iff, AddressRange.Mem, hb, hs]
    unfold AddressRange.Mem at hout
    refine iff_of_false ?_ fun h => hc h.1
    rintro ⟨-, h1, h2⟩
    omega

theorem clip_base (hw : w.Live) (h : w.contains addr = true) (hr : rg.contains (addr - w.base) = true) :
    (clip w rg).base = w.base + rg.base := by
  obtain ⟨hb, -⟩ := clip_toNat hw rg
  have hin := ((w.contains_iff addr).1 h).2
  have hrin := ((rg.contains_iff _).1 hr).2
  rw [toNat_local h] at hrin
  unfold AddressRange.Live at hw
  unfold AddressRange.Mem at hin hrin
  rw [← UInt64.toNat_inj, hb, UInt64.toNat_add]
  omega

theorem bound_congr {rgs : List AddressRange} {f g : Nat → α} (h : ∀ i < rgs.length, f i = g i) :
    bound rgs f = bound rgs g := by
  refine List.ext_getElem? fun i => ?_
  rw [bound, bound, List.getElem?_mapIdx, List.getElem?_mapIdx]
  by_cases hi : i < rgs.length
  · rw [h i hi]
  · rw [List.getElem?_eq_none (Nat.not_lt.1 hi)]
    rfl

theorem bound_map (f : AddressRange → AddressRange) (rgs : List AddressRange) (target : Nat → α) :
    bound (rgs.map f) target = (bound rgs target).map fun e => (f e.1, e.2) := by
  induction rgs generalizing target with
  | nil => rfl
  | cons rg rgs ih => rw [List.map_cons, bound_cons, bound_cons, List.map_cons, ih]

/-- The regions around a region that takes `addr` do not. -/
theorem others_of_disjoint (hdisj : parent.ranges.Pairwise fun a b => ∀ x, ¬ (a.Mem x ∧ b.Mem x))
    (hc : parent.ranges[k].contains addr = true) :
    (∀ rg ∈ parent.ranges.take k, rg.contains addr = false) ∧
      ∀ rg ∈ parent.ranges.drop (k + 1), rg.contains addr = false := by
  obtain ⟨hsplit, -⟩ := ranges_split (List.getElem?_eq_getElem k.isLt)
  rw [hsplit, List.pairwise_append, List.pairwise_cons] at hdisj
  have hin := ((parent.ranges[k].contains_iff addr).1 hc).2
  constructor
  · intro rg hrg
    refine Bool.eq_false_iff.2 fun h => ?_
    exact hdisj.2.2 rg hrg _ List.mem_cons_self addr.toNat ⟨((rg.contains_iff addr).1 h).2, hin⟩
  · intro rg hrg
    refine Bool.eq_false_iff.2 fun h => ?_
    exact hdisj.2.1.1 rg hrg addr.toNat ⟨hin, ((rg.contains_iff addr).1 h).2⟩

/-- The parent reaches what is bound to region `k`, at the local address, or what it reaches without it. -/
theorem reached_update (hdisj : parent.ranges.Pairwise fun a b => ∀ x, ¬ (a.Mem x ∧ b.Mem x)) (sub : α)
    (addr : UInt64) : parent.reached (Function.update outer k sub) addr =
      if parent.ranges[k].contains addr then some (sub, addr - parent.ranges[k].base)
      else parent.reached outer addr := by
  have hk : parent.ranges[k.val]? = some parent.ranges[k] := List.getElem?_eq_getElem k.isLt
  rw [reached_eq, reached_eq, table_split hk, table_split hk]
  have hpre : bound (parent.ranges.take k) (Function.update outer k sub) = bound (parent.ranges.take k) outer := by
    refine bound_congr fun i hi => Function.update_of_ne ?_ _ _
    rw [List.length_take] at hi
    omega
  have hpost : (fun j => Function.update outer k sub (j + 1 + k)) = fun j => outer (j + 1 + k) :=
    funext fun j => Function.update_of_ne (by omega) _ _
  rw [hpre, hpost, Function.update_self]
  split
  · rename_i hc
    rw [route_entry (fun _ => not_takes_of_bound (others_of_disjoint hdisj hc).1) hc]
    rfl
  · rename_i hc
    rw [route_append, route_append, route_cons, route_cons, if_neg hc, if_neg hc]

theorem table_flatten (parent child : BusRouter) (k : Fin parent.ranges.length) (outer inner : Nat → α) :
    table (bound (parent.flatten child k).ranges (splice k child.ranges.length outer inner)) =
      table (bound (parent.ranges.take k) outer) ++
        (bound child.ranges inner).map (fun e =>
          ((clip parent.ranges[k] e.1).contains, (clip parent.ranges[k] e.1).base, e.2)) ++
        table (bound (parent.ranges.drop (k + 1)) fun j => outer (j + 1 + k)) := by
  have hlen := (ranges_split (List.getElem?_eq_getElem k.isLt)).2
  have hpre : bound (parent.ranges.take k) (splice k child.ranges.length outer inner) =
      bound (parent.ranges.take k) outer := by
    refine bound_congr fun i hi => if_pos ?_
    rwa [hlen] at hi
  have hmid : bound (child.ranges.map (clip parent.ranges[k]))
      (fun i => splice k child.ranges.length outer inner (i + k)) =
      (bound child.ranges inner).map fun e => (clip parent.ranges[k] e.1, e.2) := by
    rw [← bound_map]
    refine bound_congr fun i hi => ?_
    rw [List.length_map] at hi
    rw [splice, if_neg (by omega), if_pos (by omega), Nat.add_sub_cancel]
  have hpost : (fun i => splice k child.ranges.length outer inner (i + (k + child.ranges.length))) =
      fun j => outer (j + 1 + k) := by
    funext i
    rw [splice, if_neg (by omega), if_neg (by omega)]
    congr 1
    omega
  rw [flatten, bound_append, bound_append, table_append, table_append, List.length_append, hlen,
    List.length_map, hpre, hmid, hpost, table, table, List.map_map]
  rfl

/-- The flat router reaches what the child reaches in the window, and what the parent reaches out of it. -/
theorem reached_flatten (hdisj : parent.ranges.Pairwise fun a b => ∀ x, ¬ (a.Mem x ∧ b.Mem x))
    (hw : parent.ranges[k].Live) (hchild : ∀ rg ∈ child.ranges, rg.Live) (addr : UInt64) :
    (parent.flatten child k).reached (splice k child.ranges.length outer inner) addr =
      if parent.ranges[k].contains addr then child.reached inner (addr - parent.ranges[k].base)
      else parent.reached outer addr := by
  have hlive {e : AddressRange × α} (he : e ∈ bound child.ranges inner) : e.1.Live :=
    hchild e.1 (range_of_mem_bound he)
  rw [reached_eq, table_flatten, route_splice
    (e := (parent.ranges[k].contains, parent.ranges[k].base, outer k))]
  · split
    · rename_i hc
      have hmap : route ((bound child.ranges inner).map fun e =>
            ((clip parent.ranges[k] e.1).contains, (clip parent.ranges[k] e.1).base, e.2)) addr =
          (route (table (bound child.ranges inner)) (addr - parent.ranges[k].base)).map fun b =>
            (parent.ranges[k].base + b.1, b.2) := by
        refine route_map _ (fun e he => ?_) fun e _ hea => ?_
        · refine Bool.eq_iff_iff.2 ((clip_contains hw (hlive he) addr).trans ?_)
          exact and_iff_right hc
        · rw [clip_base hw hc hea]
      rw [hmap, reached_eq, Option.map_map]
      congr 1
      funext b
      rw [Function.comp_apply, sub_add_local]
    · rw [reached_eq, table_split (List.getElem?_eq_getElem k.isLt)]
      rfl
  · exact fun hc => not_takes_of_bound (others_of_disjoint hdisj hc).1
  · intro f hf hfa
    obtain ⟨e, he, rfl⟩ := List.mem_map.1 hf
    exact ((clip_contains hw (hlive he) addr).1 hfa).1
  · exact fun hc => not_takes_of_bound (others_of_disjoint hdisj hc).2

/-- The leaf at the end of both look-ups, with the address it sees: the child's in the window, the parent's out
of it. -/
def leaf (parent child : BusRouter) (k : Fin parent.ranges.length) (outer inner : Nat → α) (addr : UInt64) :
    Option (α × UInt64) :=
  if parent.ranges[k].contains addr then child.reached inner (addr - parent.ranges[k].base)
  else parent.reached outer addr

variable {σ : Type*}

theorem bTransport_flatten (hdisj : parent.ranges.Pairwise fun a b => ∀ x, ¬ (a.Mem x ∧ b.Mem x))
    (hw : parent.ranges[k].Live) (hchild : ∀ rg ∈ child.ranges, rg.Live) (outer inner : Nat → BSocket σ)
    (s : σ) (t : Payload) (d : Nat) :
    parent.bTransport (Function.update outer k (child.bTransport inner)) s t d =
      (parent.flatten child k).bTransport (splice k child.ranges.length outer inner) s t d := by
  rw [bTransport_eq, bTransport_eq, reached_update hdisj, reached_flatten hdisj hw hchild]
  by_cases hc : parent.ranges[k].contains t.address = true
  · rw [if_pos hc, if_pos hc]
    dsimp only
    rw [bTransport_eq]
    dsimp only
    cases child.reached inner (t.address - parent.ranges[k].base) <;> rfl
  · rw [if_neg hc, if_neg hc]

theorem transportDbg_flatten (hdisj : parent.ranges.Pairwise fun a b => ∀ x, ¬ (a.Mem x ∧ b.Mem x))
    (hw : parent.ranges[k].Live) (hchild : ∀ rg ∈ child.ranges, rg.Live) (outer inner : Nat → DbgSocket σ)
    (s : σ) (t : Payload) :
    parent.transportDbg (Function.update outer k (child.transportDbg inner)) s t =
      (parent.flatten child k).transportDbg (splice k child.ranges.length outer inner) s t := by
  rw [transportDbg_eq, transportDbg_eq, reached_update hdisj, reached_flatten hdisj hw hchild]
  by_cases hc : parent.ranges[k].contains t.address = true
  · rw [if_pos hc, if_pos hc]
    dsimp only
    rw [transportDbg_eq]
    dsimp only
    cases child.reached inner (t.address - parent.ranges[k].base) <;> rfl
  · rw [if_neg hc, if_neg hc]

theorem address_bTransport (r : BusRouter) (socket : Nat → BSocket σ) (s : σ) (t : Payload) (d : Nat) :
    (r.bTransport socket s t d).2.1.address = t.address := by
  rw [bTransport_eq]
  split <;> rfl

theorem address_transportDbg (r : BusRouter) (socket : Nat → DbgSocket σ) (s : σ) (t : Payload) :
    (r.transportDbg socket s t).2.1.address = t.address := by
  rw [transportDbg_eq]
  split <;> rfl

end

end BusRouter

open BusRouter

/-- A child router behind region `k` of a parent is the flat router in which the child's regions, shifted and
clipped, stand in the place of region `k`: the same leaf sees the transaction at the same local address, or both
answer an address error, and the address comes back unchanged. -/
theorem nested_buses_eq_flat {σ : Type*} (parent child : BusRouter) (k : Fin parent.ranges.length)
    (hdisj : parent.ranges.Pairwise fun a b => ∀ x, ¬ (a.Mem x ∧ b.Mem x)) (hw : parent.ranges[k].Live)
    (hchild : ∀ rg ∈ child.ranges, rg.Live) (s : σ) (t : Payload) :
    (∀ (outer inner : Nat → BSocket σ) (delay : Nat),
      let out := parent.bTransport (Function.update outer k (child.bTransport inner)) s t delay
      out = (parent.flatten child k).bTransport (splice k child.ranges.length outer inner) s t delay ∧
        out.2.1.address = t.address ∧
        (parent.flatten child k).reached (splice k child.ranges.length outer inner) t.address =
          leaf parent child k outer inner t.address ∧
        out = match leaf parent child k outer inner t.address with
          | some (f, addr) =>
            let r := f s { t with address := addr } delay
            (r.1, { r.2.1 with address := t.address }, r.2.2)
          | none => (s, { t with responseStatus := .addressError }, delay)) ∧
    (∀ outer inner : Nat → DbgSocket σ,
      let out := parent.transportDbg (Function.update outer k (child.transportDbg inner)) s t
      out = (parent.flatten child k).transportDbg (splice k child.ranges.length outer inner) s t ∧
        out.2.1.address = t.address ∧
        (parent.flatten child k).reached (splice k child.ranges.length outer inner) t.address =
          leaf parent child k outer inner t.address ∧
        out = match leaf parent child k outer inner t.address with
          | some (f, addr) =>
            let r := f s { t with address := addr }
            (r.1, { r.2.1 with address := t.address }, r.2.2)
          | none => (s, { t with responseStatus := .addressError }, 0)) := by
  refine ⟨fun outer inner delay => ⟨?_, ?_, ?_, ?_⟩, fun outer inner => ⟨?_, ?_, ?_, ?_⟩⟩
  · exact bTransport_flatten hdisj hw hchild outer inner s t delay
  · exact address_bTransport _ _ s t delay
  · exact reached_flatten hdisj hw hchild t.address
  · rw [bTransport_flatten hdisj hw hchild, bTransport_eq, reached_flatten hdisj hw hchild]
    rfl
  · exact transportDbg_flatten hdisj hw hchild outer inner s t
  · exact address_transportDbg _ _ s t
  · exact reached_flatten hdisj hw hchild t.address
  · rw [transportDbg_flatten hdisj hw hchild, transportDbg_eq, reached_flatten hdisj hw hchild]
    rfl

/-- A leaf that notes which it is and the local address. -/
def noting (i : Nat) : BSocket (List (Nat × UInt64)) := fun log t delay =>
  (log ++ [(i, t.address)], { t with responseStatus := .ok }, delay)

/-- A window of 0x100 bytes before a plain region. -/
def outerBus : BusRouter := ⟨[⟨0x1000, 0x100⟩, ⟨0x2000, 0x100⟩], 2, by decide⟩

/-- Two regions that overlap, the second larger than the window. -/
def innerBus : BusRouter := ⟨[⟨0, 0x80⟩, ⟨0x40, 0x1000⟩], 2, by decide⟩

theorem nested_buses_eq_flat_inner :
    let out := outerBus.bTransport (Function.update noting 0 (innerBus.bTransport fun i => noting (10 + i))) []
      ⟨.read, 0x10F0, none, 4, .incomplete, false⟩ 0
    out = (outerBus.flatten innerBus ⟨0, by decide⟩).bTransport (splice 0 2 noting fun i => noting (10 + i)) []
        ⟨.read, 0x10F0, none, 4, .incomplete, false⟩ 0 ∧ out.2.1.address = 0x10F0 ∧ out.1 = [(11, 0xB0)] := by
  have h := (nested_buses_eq_flat outerBus innerBus ⟨0, by decide⟩ ?_ ?_ ?_ []
    ⟨.read, 0x10F0, none, 4, .incomplete, false⟩).1 noting (fun i => noting (10 + i)) 0
  · exact ⟨h.1, h.2.1, (congrArg Prod.fst h.2.2.2).trans (by decide)⟩
  · simp only [outerBus, List.pairwise_cons, List.mem_cons, List.not_mem_nil, or_false, forall_eq,
      AddressRange.Mem, false_implies, implies_true, List.Pairwise.nil, and_true, UInt64.reduceToNat]
    intro x
    omega
  · show 0x1000 + 0x100 < 2 ^ 64
    decide
  · simp [innerBus, AddressRange.Live]

end CdcVp
