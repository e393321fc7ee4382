import CdcVp.BusRouter
import CdcVp.FirstMatch

/-!
# What a router reaches

`reached` is the target and the local address that `decode` and the subtraction yield; both transports are
the target's transport at the local address, with the address restored (`bTransport_eq`, `transportDbg_eq`).
The router looks an address up in the first-match table of its regions (`reached_eq`).
-/

namespace CdcVp
open FirstMatch

namespace AddressRange

/-- The transaction as the target behind the region receives it. -/
def toLocal (rg : AddressRange) (t : Payload) : Payload := { t with address := t.address - rg.base }

@[simp] theorem toLocal_command (rg : AddressRange) (t : Payload) : (rg.toLocal t).command = t.command := rfl
@[simp] theorem toLocal_dataPtr (rg : AddressRange) (t : Payload) : (rg.toLocal t).dataPtr = t.dataPtr := rfl
@[simp] theorem toLocal_dataLength (rg : AddressRange) (t : Payload) :
    (rg.toLocal t).dataLength = t.dataLength := rfl

end AddressRange

namespace BusRouter
variable {α σ : Type*}

/-- What the transports reach: the target behind the decoded socket, and the local address. -/
def reached (r : BusRouter) (target : Nat → α) (addr : UInt64) : Option (α × UInt64) :=
  let idx := r.decode addr
  if idx < 0 then none else some (target idx.toNat, addr - r.ranges[idx.toNat]!.base)

/-- The regions with the targets bound to their sockets. -/
def bound (rgs : List AddressRange) (target : Nat → α) : List (AddressRange × α) :=
  rgs.mapIdx fun i rg => (rg, target i)

/-- The first-match table of an address map. -/
def table (es : List (AddressRange × α)) : List (Entry UInt64 (UInt64 × α)) :=
  es.map fun e => (e.1.contains, e.1.base, e.2)

section
variable {r : BusRouter} {target : Nat → α} {addr : UInt64} {i : Nat} {rg : AddressRange}

theorem bTransport_eq (r : BusRouter) (socket : Nat → BSocket σ) (s : σ) (t : Payload) (d : Nat) :
    r.bTransport socket s t d =
      match r.reached socket t.address with
      | some (f, addr) =>
        let out := f s { t with address := addr } d
        (out.1, { out.2.1 with address := t.address }, out.2.2)
      | none => (s, { t with responseStatus := .addressError }, d) := by
  unfold bTransport reached
  dsimp only
  split <;> rfl

theorem transportDbg_eq (r : BusRouter) (socket : Nat → DbgSocket σ) (s : σ) (t : Payload) :
    r.transportDbg socket s t =
      match r.reached socket t.address with
      | some (f, addr) =>
        let out := f s { t with address := addr }
        (out.1, { out.2.1 with address := t.address }, out.2.2)
      | none => (s, { t with responseStatus := .addressError }, 0) := by
  unfold transportDbg reached
  dsimp only
  split <;> rfl

theorem reached_of_decodesTo (h : r.DecodesTo addr i rg) (hd : r.decode addr = i) :
    r.reached target addr = some (target i, addr - rg.base) := by
  have hneg : ¬ (i : Int) < 0 := by omega
  have hb : r.ranges[i]!.base = rg.base := by rw [List.getElem!_eq_getElem?_getD, h.get]; rfl
  simp only [reached, hd, hneg, if_false, Int.toNat_natCast, hb]

theorem bound_append (as bs : List AddressRange) (target : Nat → α) :
    bound (as ++ bs) target = bound as target ++ bound bs fun i => target (i + as.length) :=
  List.mapIdx_append

theorem bound_cons (rg : AddressRange) (rgs : List AddressRange) (target : Nat → α) :
    bound (rg :: rgs) target = (rg, target 0) :: bound rgs fun i => target (i + 1) :=
  List.mapIdx_cons

theorem table_append (es fs : List (AddressRange × α)) : table (es ++ fs) = table es ++ table fs :=
  List.map_append

theorem range_of_mem_bound {rgs : List AddressRange} {e : AddressRange × α} (h : e ∈ bound rgs target) :
    e.1 ∈ rgs := by
  obtain ⟨j, hj, rfl⟩ := List.mem_mapIdx.1 h
  exact List.getElem_mem hj

theorem not_takes_of_bound {rgs : List AddressRange} (h : ∀ rg ∈ rgs, rg.contains addr = false) :
    ∀ f ∈ table (bound rgs target), f.1 addr = false := by
  intro f hf
  obtain ⟨e, he, rfl⟩ := List.mem_map.1 hf
  exact h e.1 (range_of_mem_bound he)

/-- A router at one of its regions. -/
theorem ranges_split (h : r.ranges[i]? = some rg) :
    r.ranges = r.ranges.take i ++ rg :: r.ranges.drop (i + 1) ∧ (r.ranges.take i).length = i := by
  obtain ⟨hi, rfl⟩ := List.getElem?_eq_some_iff.1 h
  refine ⟨?_, by rw [List.length_take]; omega⟩
  rw [← List.drop_eq_getElem_cons hi, List.take_append_drop]

theorem table_split (h : r.ranges[i]? = some rg) (target : Nat → α) :
    table (bound r.ranges target) = table (bound (r.ranges.take i) target) ++
      (rg.contains, rg.base, target i) :: table (bound (r.ranges.drop (i + 1)) fun j => target (j + 1 + i)) := by
  obtain ⟨hsplit, hlen⟩ := ranges_split h
  conv_lhs => rw [hsplit]
  rw [bound_append, table_append, hlen, bound_cons, Nat.zero_add]
  rfl

/-- `decode` is a first-match look-up. -/
theorem reached_eq (r : BusRouter) (target : Nat → α) (addr : UInt64) :
    r.reached target addr = (route (table (bound r.ranges target)) addr).map fun b => (b.2, addr - b.1) := by
  rcases r.decode_cases addr with ⟨i, rg, h, hd⟩ | ⟨h, hd⟩
  · rw [reached_of_decodesTo h hd, table_split h.get, route_entry _ h.contains]
    · rfl
    · intro _
      refine not_takes_of_bound fun rg' hrg' => ?_
      obtain ⟨j, hj, rfl⟩ := List.mem_iff_getElem.1 hrg'
      have hj' : j < i := by
        have := (ranges_split h.get).2
        omega
      refine h.first j hj' _ ?_
      rw [List.getElem_take, List.getElem?_eq_getElem]
  · rw [route_eq_none.2 (not_takes_of_bound h), reached, hd]
    rfl

end

end BusRouter
end CdcVp
