import CdcVp.ClintBounds

/-!
# Slices of `mtimecmp`

`cells` is a 64-bit value as a byte store at the offsets 0 to 7. A write of a slice is one write of that store
(`step_cells`), so a run leaves at each offset the byte last written there, and the slices of a value leave
the value whatever their cut and order. All of them share one notification.
-/

namespace CdcVp
open FlatStore LittleEndian Runs ScEvent

namespace Clint
variable {c c' : Clint} {op : Op} {is : List Op} {o os : List Event} {t : Payload} {d : Nat}
  {v w : UInt64} {i j n : Nat} {src bs ptr : List UInt8} {s : Nat × Nat}

def cells (v : UInt64) : Store UInt8 := Block.byteAt (0, bytes 8 v.toNat)

/-- The offset in `mtimecmp` that the transaction starts at. -/
def offset (t : Payload) : Nat := t.address.toNat - kRegMtimecmp.toNat

/-- What a write puts at which offsets. -/
def block (t : Payload) : Block UInt8 := (offset t, (t.dataPtr.getD []).take t.dataLength.toNat)

def written : Op → List (Block UInt8)
  | .transport t _ => if WritesMtimecmp t then [block t] else []
  | _ => []

/-- Every read of `mtimecmp` returns what `m` has at its offsets. -/
def Reads (c : Clint) (m : Store UInt8) : Prop := ∀ (t : Payload) (ptr : List UInt8) (d : Nat),
  t.command = .read → t.dataPtr = some ptr → InRegister kRegMtimecmp t →
    ∃ bs, c.bTransport t d = some (c, { t with dataPtr := some bs, responseStatus := .ok }, d + 10000) ∧
      ∀ j < t.dataLength.toNat, bs[j]? = m (offset t + j)

/-- `t` writes the bytes of `v` in the span `s`. -/
structure WritesSlice (v : UInt64) (s : Nat × Nat) (t : Payload) : Prop where
  command : t.command ≠ .read
  address : t.address.toNat = kRegMtimecmp.toNat + s.1
  data : t.HasBuffer (Block.part (0, bytes 8 v.toNat) s).2

/-! ### One slice -/

theorem sliceWrite_eq (h : i + n ≤ 8) (hs : src.length ≤ n) : ∃ w, sliceWrite v i n src = some w ∧
    bytes 8 w.toNat = blit (bytes 8 v.toNat) i src := by
  have hlen : (blit (bytes 8 v.toNat) i src).length = 8 := by
    rw [length_blit (by rw [length_bytes]; omega), length_bytes]
  refine ⟨_, by rw [sliceWrite, if_pos h, List.take_of_length_le hs], ?_⟩
  have hlt : value (blit (bytes 8 v.toNat) i src) < 2 ^ 64 := by
    have := value_lt (blit (bytes 8 v.toNat) i src)
    rwa [hlen] at this
  have hval := bytes_value (blit (bytes 8 v.toNat) i src)
  rw [hlen] at hval
  rw [UInt64.toNat_ofNat', Nat.mod_eq_of_lt hlt, hval]

theorem sliceRead_eq (h : i + n ≤ 8) : ∃ bs, sliceRead v i n = some bs ∧ bs.length = n ∧
    ∀ j < n, bs[j]? = cells v (i + j) := by
  refine ⟨_, if_pos h, by simp; omega, fun j hj => ?_⟩
  rw [List.getElem?_take_of_lt hj, List.getElem?_drop]
  rfl

theorem target_eq_of_inRegister (hp : t.dataPtr.isSome) (h : InRegister kRegMtimecmp t) :
    target t = .mtimecmp := by
  have hbase : kRegMtimecmp.toNat = 0x4000 := rfl
  obtain ⟨h1, h2, -⟩ := h
  refine target_eq_mtimecmp.2 ⟨hp, ?_, (inWindow_iff (by decide)).2 ⟨h1, ?_⟩⟩
  · rintro ⟨ha, -⟩
    rw [ha, hbase] at h1
    exact absurd h1 (by decide)
  · rw [Nat.mod_eq_of_lt (by omega)]
    exact h2

/-- A slice of the register is never reached through a sum that wraps. -/
theorem inRegister_of_slice (h : InWindow kRegMtimecmp t)
    (hs : (sub kRegMtimecmp t).toNat + t.dataLength.toNat ≤ 8) : InRegister kRegMtimecmp t := by
  have hbase : kRegMtimecmp.toNat = 0x4000 := rfl
  have ha := t.address.toNat_lt
  have hge : kRegMtimecmp.toNat ≤ t.address.toNat := ((inWindow_iff (by decide)).1 h).1
  rw [toNat_sub hge, hbase] at hs
  exact h.inRegister (by decide) (by omega)

theorem reads_cells (c : Clint) : Reads c (cells c.mtimecmp) := by
  intro t ptr d hc hp hin
  obtain ⟨bs, hbs, hlen, hj⟩ := sliceRead_eq (v := c.mtimecmp) hin.slice
  refine ⟨blit ptr 0 bs, ?_, fun j hj' => ?_⟩
  · rw [bTransport_mtimecmp (target_eq_of_inRegister (by rw [hp]; rfl) hin) hp, if_pos hc, hbs]
    rfl
  · rw [offset, ← sub_toNat hin.base_le hin.end_le]
    rw [← hlen] at hj'
    rw [blit, List.take_zero, List.nil_append, List.getElem?_append_left hj']
    exact hj j (hlen ▸ hj')

theorem bTransport_writes (hw : WritesMtimecmp t) (hin : InRegister kRegMtimecmp t) (d : Nat) :
    ∃ w, c.bTransport t d = some ({ c with mtimecmp := w, cmpEvent := .delta },
      { t with responseStatus := .ok }, d + 10000) ∧
      bytes 8 w.toNat = blit (bytes 8 c.mtimecmp.toNat) (offset t) (block t).2 := by
  obtain ⟨ht, hc⟩ := writesMtimecmp_iff.1 hw
  obtain ⟨ptr, hp⟩ := Option.isSome_iff_exists.1 hw.2.1
  have hsub := sub_toNat hin.base_le hin.end_le
  have hlen : (ptr.take t.dataLength.toNat).length ≤ t.dataLength.toNat := List.length_take_le _ _
  obtain ⟨w, hslice, hbytes⟩ := sliceWrite_eq (v := c.mtimecmp) hin.slice hlen
  refine ⟨w, ?_, ?_⟩
  · rw [bTransport_mtimecmp ht hp, if_neg hc]
    rw [sliceWrite, List.take_take, Nat.min_self, ← sliceWrite] at hslice
    rw [hslice]
    rfl
  · rw [hbytes, hsub, block, hp]
    rfl

/-! ### Slice after slice -/

theorem cells_inj (h : cells v = cells w) : v = w := by
  have hbytes : bytes 8 v.toNat = bytes 8 w.toNat := by
    refine List.ext_getElem? fun k => ?_
    simpa [cells, Block.byteAt] using congrFun h k
  exact UInt64.toNat_inj.1 (bytes_inj v.toNat_lt w.toNat_lt hbytes)

/-- A write of all eight bytes leaves nothing of the old value. -/
theorem cells_write_all (v w : UInt64) : (cells w).write (0, bytes 8 v.toNat) = cells v := by
  funext x
  rw [Store.write, cells, cells]
  by_cases hx : x < 8
  · obtain ⟨b, hb⟩ := Option.isSome_iff_exists.1 (Block.byteAt_isSome.2
      (show Block.Covers (0, bytes 8 v.toNat) x from ⟨Nat.zero_le x, by rw [length_bytes]; omega⟩))
    rw [hb, Option.some_or]
  · have hno (u : UInt64) : Block.byteAt (0, bytes 8 u.toNat) x = none :=
      Block.byteAt_of_not_covers fun h => hx (by simpa using h.2)
    rw [hno, hno, Option.none_or]

theorem length_block_le (t : Payload) : (block t).2.length ≤ t.dataLength.toNat := List.length_take_le _ _

theorem cells_of_bytes (hin : InRegister kRegMtimecmp t)
    (h : bytes 8 w.toNat = blit (bytes 8 v.toNat) (offset t) (block t).2) :
    cells w = (cells v).write (block t) := by
  have hfit : offset t + (block t).2.length ≤ (bytes 8 v.toNat).length := by
    have := length_block_le t
    have := hin.base_le
    have := hin.end_le
    rw [length_bytes, offset]
    omega
  funext x
  rw [cells, h, byteAt_blit hfit, Nat.zero_add]
  rfl

theorem written_of_not (h : ¬ WritesMtimecmp t) (d : Nat) : written (.transport t d) = [] := if_neg h

theorem written_of_writes (h : WritesMtimecmp t) (d : Nat) : written (.transport t d) = [block t] := if_pos h

/-- A transaction that writes `mtimecmp` and is defined names a slice of the register. -/
theorem inRegister_of_writes (hw : WritesMtimecmp t) {r : Clint × Payload × Nat}
    (h : c.bTransport t d = some r) : InRegister kRegMtimecmp t := by
  obtain ⟨ht, hc⟩ := writesMtimecmp_iff.1 hw
  obtain ⟨ptr, hp⟩ := Option.isSome_iff_exists.1 hw.2.1
  rw [bTransport_mtimecmp ht hp, if_neg hc] at h
  obtain ⟨v, hv, -⟩ := Option.map_eq_some_iff.1 h
  refine inRegister_of_slice (target_eq_mtimecmp.1 ht).2.2 ?_
  by_contra hno
  rw [sliceWrite, if_neg hno] at hv
  cases hv

/-- A write that reaches `mtimecmp` is one write of its cells. -/
theorem bTransport_cells (hw : WritesMtimecmp t) {r : Clint × Payload × Nat} (h : c.bTransport t d = some r) :
    ∃ w, r.1 = { c with mtimecmp := w, cmpEvent := .delta } ∧ cells w = (cells c.mtimecmp).write (block t) := by
  have hin := inRegister_of_writes hw h
  obtain ⟨w, hb, hbytes⟩ := bTransport_writes (c := c) hw hin d
  obtain rfl := Option.some.inj (hb.symm.trans h)
  exact ⟨w, rfl, cells_of_bytes hin hbytes⟩

theorem step_cells (h : machine c op = some (c', o)) :
    cells c'.mtimecmp = (cells c.mtimecmp).writes (written op) := by
  have hsame (hm : c'.mtimecmp = c.mtimecmp) : cells c'.mtimecmp = cells c.mtimecmp := by rw [hm]
  rcases step_cases h with ⟨t, d, r, rfl, hr, rfl, -⟩ | ⟨rfl, -, rfl, -⟩ | ⟨rfl, -, rfl, -⟩ |
    ⟨rfl, -, -, rfl, -⟩ | ⟨time, rfl, -, -, -, rfl, -⟩ | ⟨rfl, -, -, rfl, -⟩
  · rcases bTransport_cases hr with ⟨hno, hs⟩ | ⟨hw, -⟩
    · rw [written_of_not hno]
      exact hsame hs.mtimecmp
    · obtain ⟨w, heq, hcells⟩ := bTransport_cells hw hr
      rw [heq, written_of_writes hw, Store.writes_cons, Store.writes_nil]
      exact hcells
  · exact hsame rfl
  · exact hsame (timerTurn_mtimecmp c)
  · exact hsame rfl
  · exact hsame rfl
  · exact hsame rfl

/-- Over a run, each offset holds the byte last written there. -/
theorem run_cells (h : Run machine c is os c') :
    cells c'.mtimecmp = (cells c.mtimecmp).writes (is.flatMap written) := by
  induction h with
  | nil => rfl
  | snoc _ hi ih =>
    rw [step_cells hi, ih, List.flatMap_append, Store.writes_append, List.flatMap_singleton]

theorem WritesSlice.block_eq (h : WritesSlice v s t) : block t = Block.part (0, bytes 8 v.toNat) s := by
  obtain ⟨hp, hl⟩ := h.data
  rw [block, hp, Option.getD_some, ← hl, List.take_length, offset, h.address, Nat.add_sub_cancel_left]
  rfl

theorem WritesSlice.inRegister (h : WritesSlice v s t) (hs : s.1 + s.2 ≤ 8) : InRegister kRegMtimecmp t := by
  have hlen : t.dataLength.toNat ≤ s.2 := by
    rw [← h.data.2, Block.part]
    exact List.length_take_le _ _
  rw [inRegister_iff, h.address]
  omega

theorem WritesSlice.writes (h : WritesSlice v s t) (hs : s.1 + s.2 ≤ 8) : WritesMtimecmp t :=
  writesMtimecmp_iff.2 ⟨target_eq_of_inRegister (by rw [h.data.1]; rfl) (h.inRegister hs), h.command⟩

/-- The transactions one after another, with nothing run in between. -/
def backToBack (ts : List (Payload × Nat)) : List Op := ts.map fun t => .transport t.1 t.2

/-- Slices written back to back change `mtimecmp`, and notify once for all of them. -/
theorem run_backToBack {order : List (Nat × Nat)} {ts : List (Payload × Nat)}
    (h : List.Forall₂ (fun s t => WritesSlice v s t.1) order ts) (hs : ∀ s ∈ order, s.1 + s.2 ≤ 8) (c : Clint) :
    ∃ w os, Run machine c (backToBack ts) os
      { c with mtimecmp := w, cmpEvent := if ts = [] then c.cmpEvent else .delta } := by
  induction h generalizing c with
  | nil => exact ⟨c.mtimecmp, [], .nil⟩
  | @cons s t order ts hst _ ih =>
    have hle := hs s List.mem_cons_self
    obtain ⟨w, hb, -⟩ := bTransport_writes (c := c) (hst.writes hle) (hst.inRegister hle) t.2
    have hstep : machine c (.transport t.1 t.2) =
        some ({ c with mtimecmp := w, cmpEvent := .delta }, [.wrote]) := by
      rw [machine, hb, Option.map_some, if_pos (hst.writes hle)]
    obtain ⟨w', os, hrun⟩ := ih (fun s hs' => hs s (List.mem_cons_of_mem _ hs'))
      { c with mtimecmp := w, cmpEvent := .delta }
    rw [ite_self] at hrun
    exact ⟨w', .wrote :: os, (Run.single hstep).append hrun⟩

theorem written_backToBack {order : List (Nat × Nat)} {ts : List (Payload × Nat)}
    (h : List.Forall₂ (fun s t => WritesSlice v s t.1) order ts) (hs : ∀ s ∈ order, s.1 + s.2 ≤ 8) :
    (backToBack ts).flatMap written = order.map (Block.part (0, bytes 8 v.toNat)) := by
  induction h with
  | nil => rfl
  | @cons s t order ts hst _ ih =>
    have hle := hs s List.mem_cons_self
    rw [backToBack, List.map_cons, List.flatMap_cons, written_of_writes (hst.writes hle), hst.block_eq]
    exact congrArg _ (ih fun s hs' => hs s (List.mem_cons_of_mem _ hs'))

/-- The slices of `v`, cut and ordered in any way, leave `v` in `mtimecmp`. -/
theorem run_slices {ns : List Nat} {order : List (Nat × Nat)} {ts : List (Payload × Nat)}
    (hsum : ns.sum = 8) (horder : order.Perm (cuts 0 ns))
    (h : List.Forall₂ (fun s t => WritesSlice v s t.1) order ts) (c : Clint) :
    ∃ os, Run machine c (backToBack ts) os { c with mtimecmp := v, cmpEvent := .delta } := by
  have hle (s : Nat × Nat) (hs : s ∈ order) : s.1 + s.2 ≤ 8 := by
    have := (le_of_mem_cuts (horder.mem_iff.1 hs)).2
    omega
  obtain ⟨w, os, hrun⟩ := run_backToBack h hle c
  have hcells := run_cells hrun
  rw [written_backToBack h hle, Store.writes_parts _ horder (by rw [hsum, length_bytes]),
    cells_write_all] at hcells
  obtain rfl : w = v := cells_inj hcells
  have hne : ts ≠ [] := by
    rintro rfl
    cases h
    rw [List.nil_perm] at horder
    obtain ⟨s, hs, -⟩ : ∃ s ∈ cuts 0 ns, s.1 ≤ 0 ∧ 0 < s.1 + s.2 :=
      exists_mem_cuts (Nat.le_refl 0) (by rw [hsum]; decide)
    rw [horder] at hs
    cases hs
  rw [if_neg hne] at hrun
  exact ⟨os, hrun⟩

end Clint

open Clint

/-- Slices of `v`, cut and ordered in any way and written back to back, leave the state that one write of `v`
leaves: `mtimecmp` reads as `v`, and `timer_proc` next drives MTIP by it. Over any run, a read of `mtimecmp`
returns at each offset the byte last written there. -/
theorem mtimecmp_slices {c : Clint} {v : UInt64} {ns : List Nat} {order : List (Nat × Nat)}
    {ts : List (Payload × Nat)} {whole : Payload × Nat} (hsum : ns.sum = 8) (horder : order.Perm (cuts 0 ns))
    (hts : List.Forall₂ (fun s t => WritesSlice v s t.1) order ts) (hwhole : WritesSlice v (0, 8) whole.1) :
    (∃ c', (∃ os, Run machine c (backToBack ts) os c') ∧ (∃ os, Run machine c (backToBack [whole]) os c') ∧
      c'.mtimecmp = v ∧ Reads c' (cells v) ∧
      ∀ later os a, (∀ op ∈ later, written op = []) → Run machine c' (later ++ [.wake]) os a →
        (a.cpu.level 7 = true ↔ v ≠ 0 ∧ v.toNat ≤ a.now.toNat / 10 ^ 6)) ∧
    ∀ is os a, Run machine c is os a →
      Reads a fun k => (lastByte (is.flatMap written) k).or (cells c.mtimecmp k) := by
  refine ⟨⟨{ c with mtimecmp := v, cmpEvent := .delta }, run_slices hsum horder hts c, ?_, rfl,
    reads_cells _, ?_⟩, ?_⟩
  · have hone : [8].sum = 8 := rfl
    exact run_slices hone (.refl _) (.cons hwhole .nil) c
  · intro later os a hno hrun
    obtain ⟨os₁, b, o, hlater, hwake, -⟩ := hrun.of_concat
    have hsame := run_cells hlater
    rw [List.flatMap_eq_nil_iff.2 hno, Store.writes_nil] at hsame
    have hv : b.mtimecmp = v := cells_inj hsame
    obtain ⟨-, rfl⟩ : b.timerProc = .woken ∧ a = b.timerTurn := by
      rcases step_cases hwake with ⟨_, _, _, h, -⟩ | ⟨h, -⟩ | ⟨-, hw, ha, -⟩ | ⟨h, -⟩ | ⟨_, h, -⟩ | ⟨h, -⟩
      · cases h
      · cases h
      · exact ⟨hw, ha⟩
      · cases h
      · cases h
      · cases h
    rw [timerTurn_now, ← hv]
    exact level_timerTurn b
  · intro is os a hrun
    have hcells : cells a.mtimecmp = fun k => (lastByte (is.flatMap written) k).or (cells c.mtimecmp k) := by
      funext k
      rw [run_cells hrun, Store.writes_apply]
    rw [← hcells]
    exact reads_cells a

/-- The upper half and then the lower, as a 32-bit hart writes it. -/
def halves : List (Payload × Nat) :=
  [(⟨.write, 0x4004, some [4, 3, 2, 1], 4, .incomplete, false⟩, 0),
    (⟨.write, 0x4000, some [8, 7, 6, 5], 4, .incomplete, false⟩, 0)]

def inOne : Payload × Nat :=
  (⟨.write, 0x4000, some [8, 7, 6, 5, 4, 3, 2, 1], 8, .incomplete, false⟩, 0)

theorem mtimecmp_slices_halves : ∃ c', (∃ os, Run machine Clint.new (backToBack halves) os c') ∧
    c'.mtimecmp = 0x0102030405060708 ∧ Reads c' (cells 0x0102030405060708) := by
  have hsum : [4, 4].sum = 8 := rfl
  have horder : [(4, 4), (0, 4)].Perm (cuts 0 [4, 4]) := .swap _ _ _
  have hts : List.Forall₂ (fun s t => WritesSlice 0x0102030405060708 s t.1) [(4, 4), (0, 4)] halves :=
    .cons ⟨by decide, by decide, by decide, by decide⟩ (.cons ⟨by decide, by decide, by decide, by decide⟩ .nil)
  have hwhole : WritesSlice 0x0102030405060708 (0, 8) inOne.1 := ⟨by decide, by decide, by decide, by decide⟩
  obtain ⟨⟨c', hrun, -, hv, hread, -⟩, -⟩ := mtimecmp_slices (c := Clint.new) hsum horder hts hwhole
  exact ⟨c', hrun, hv, hread⟩

end CdcVp
