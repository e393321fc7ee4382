import CdcVp.MemoryDmi

/-!
# Loading a memory

`load` is the backdoor that fills a memory, read-only or not. `machine` is an initiator of `DmiPort` with loads in
between. The memory stays one byte store, and nothing but a load changes a ROM.
-/

namespace CdcVp
open FlatStore Runs

namespace MemoryTlm
variable {m : MemoryTlm} {data : List UInt8} {len offset : UInt64}

/-- `memory_tlm::load`. The second component is the error that is reported. -/
def load (m : MemoryTlm) (data : List UInt8) (len offset : UInt64) : MemoryTlm × Option String :=
  if offset > m.size ∨ len > m.size - offset then (m, some "load() out of bounds")
  else (m.store offset.toNat (data.take len.toNat), none)

theorem load_bounds_iff : (offset > m.size ∨ len > m.size - offset) ↔
    ¬ offset.toNat + len.toNat ≤ m.data.length := by
  have hs := m.size_toNat
  rw [gt_iff_lt, gt_iff_lt, UInt64.lt_iff_toNat_lt, UInt64.lt_iff_toNat_lt, hs]
  by_cases ha : offset.toNat ≤ m.data.length
  · rw [UInt64.toNat_sub_of_le _ _ (by rw [UInt64.le_iff_toNat_le, hs]; exact ha), hs]
    omega
  · omega

/-- All that a load of a buffer of its length can do. -/
theorem load_cases (m : MemoryTlm) (hd : data.length = len.toNat) (offset : UInt64) :
    (offset.toNat + len.toNat ≤ m.data.length ∧ m.load data len offset = (m.store offset.toNat data, none)) ∨
    (¬ offset.toNat + len.toNat ≤ m.data.length ∧ m.load data len offset = (m, some "load() out of bounds")) := by
  by_cases h : offset.toNat + len.toNat ≤ m.data.length
  · refine .inl ⟨h, ?_⟩
    rw [load, if_neg (mt load_bounds_iff.1 (not_not.2 h)), ← hd, List.take_length]
  · refine .inr ⟨h, ?_⟩
    rw [load, if_pos (load_bounds_iff.2 h)]

end MemoryTlm

/-- A call of `load` with a buffer of its length. -/
structure LoadCall where
  data : List UInt8
  len : UInt64
  offset : UInt64
  buffer : data.length = len.toNat

namespace LoadCall

/-- What the call puts in a memory of `size` bytes. -/
def block (size : Nat) (c : LoadCall) : Option (Block UInt8) :=
  if c.offset.toNat + c.len.toNat ≤ size then some (c.offset.toNat, c.data) else none

end LoadCall

namespace LoadedPort
open MemoryTlm DmiPort

/-- An access of the initiator, or a load. -/
abbrev Op := DmiPort.Op ⊕ LoadCall

def machine : Machine DmiPort Op (StoreAccess UInt8) := fun s op =>
  match op with
  | .inl op => DmiPort.machine s op
  | .inr c =>
    let r := s.mem.load c.data c.len c.offset
    some ({ s with mem := r.1 }, if r.2.isNone then [.wrote (c.offset.toNat, c.data)] else [])

/-- What the loads among the inputs put in a memory of `size` bytes. -/
def loaded (size : Nat) (is : List Op) : List (Block UInt8) :=
  is.filterMap fun op => match op with
    | .inl _ => none
    | .inr c => c.block size

variable {m : MemoryTlm} {s s' : DmiPort} {op : Op} {aop : DmiPort.Op} {is : List Op} {o es : List (StoreAccess UInt8)}
  {c : LoadCall}

theorem loaded_concat (size : Nat) (is : List Op) (op : Op) : loaded size (is ++ [op]) =
    loaded size is ++ (match op with | .inl _ => none | .inr c => c.block size).toList := by
  rw [loaded, List.filterMap_append]
  rcases op with op | c
  · simp [loaded]
  · cases hb : c.block size <;> simp [loaded, hb]

/-- A load puts its block in the store, or leaves it where the memory is too short. -/
theorem load_step (hs : Holds m s) (h : machine s (.inr c) = some (s', o)) :
    Serves (view s.mem) o (view s'.mem) ∧ Holds m s' ∧
      view s'.mem = (view s.mem).writes (c.block m.data.length).toList := by
  cases h
  rcases s.mem.load_cases c.buffer c.offset with ⟨hfit, he⟩ | ⟨hno, he⟩
  · have hw : view (s.mem.store c.offset.toNat c.data) = _ := view_store (by rw [c.buffer]; exact hfit)
    rw [hs.kind.length] at hfit
    rw [he, LoadCall.block, if_pos hfit]
    exact ⟨.of_wrote hw, hs.of_mem (sameKind_store ..), hw⟩
  · rw [hs.kind.length] at hno
    rw [he, LoadCall.block, if_neg hno]
    exact ⟨.nil _, hs, rfl⟩

/-- No access changes a ROM. -/
theorem access_rom (hs : Holds m s) (hro : m.readOnly = true) (h : DmiPort.machine s aop = some (s', o)) :
    s'.mem = s.mem := by
  have hrom : s.mem.readOnly ≠ false := by
    rw [hs.kind.readOnly, hro]
    decide
  rcases aop with ⟨t, d⟩ | t | ⟨t, dmi⟩ | ⟨addr, len⟩ | ⟨addr, src⟩
  · cases h
    obtain ⟨buf, hb⟩ := t.2
    rcases bTransport_cases (m := s.mem) hb d with ⟨-, -, he⟩ | ⟨-, -, hw, -⟩ | ⟨-, r, -, he⟩
    · rw [he]
    · exact absurd hw hrom
    · rw [he]
  · cases h
    obtain ⟨buf, hb⟩ := t.2
    by_cases hok : t.1.address.toNat ≤ s.mem.data.length ∧ s.mem.Allows t.1.command
    · rcases hok with ⟨ha, hc | ⟨-, hw⟩⟩
      · obtain ⟨n, -, he⟩ := transportDbg_read hb hc ha
        rw [he]
      · exact absurd hw hrom
    · obtain ⟨r, he⟩ := transportDbg_refused hb hok
      rw [he]
  · cases h
    rfl
  · obtain ⟨off, -, he⟩ := Option.map_eq_some_iff.1 h
    cases he
    rfl
  · obtain ⟨off, hoff, -⟩ := Option.map_eq_some_iff.1 h
    rw [direct] at hoff
    cases hg : s.grant with
    | none =>
      rw [hg] at hoff
      cases hoff
    | some g =>
      rw [hg] at hoff
      obtain ⟨⟨-, hw⟩, -⟩ := Option.ite_none_right_eq_some.1 hoff
      rw [(hs.grant g hg).write, hro] at hw
      cases hw

theorem step (hs : Holds m s) (h : machine s op = some (s', o)) : Serves (view s.mem) o (view s'.mem) ∧ Holds m s' := by
  rcases op with op | c
  · exact DmiPort.step hs h
  · obtain ⟨hv, hs', -⟩ := load_step hs h
    exact ⟨hv, hs'⟩

theorem serves_run (h : Run machine (DmiPort.new m) is es s) : Serves (view m) es (view s.mem) ∧ Holds m s := by
  induction h with
  | nil => exact ⟨.nil _, .refl m, fun g hg => by cases hg⟩
  | snoc _ hi ih =>
    obtain ⟨hv, hs⟩ := step ih.2 hi
    exact ⟨ih.1.append hv, hs⟩

/-- A ROM holds what it was loaded with. -/
theorem rom_run (hro : m.readOnly = true) (h : Run machine (DmiPort.new m) is es s) :
    view s.mem = (view m).writes (loaded m.data.length is) := by
  induction h with
  | nil => rfl
  | @snoc is es a i b o hrun hi ih =>
    have hs := (serves_run hrun).2
    rw [loaded_concat, Store.writes_append, ← ih]
    rcases i with op | c
    · rw [access_rom hs hro hi]
      rfl
    · exact (load_step hs hi).2.2

end LoadedPort

open MemoryTlm DmiPort LoadedPort

/-- A memory with loads between timed, debug and direct accesses. It is one byte store over the whole run, and a load
goes through iff its bytes lie in the memory, in exact integers. If it is read-only, each address holds the byte last
loaded there, or what it held at first, whatever the accesses tried to write. -/
theorem memory_load (m : MemoryTlm) (is : List LoadedPort.Op) (es : List (StoreAccess UInt8)) (s : DmiPort)
    (hrun : Run LoadedPort.machine (DmiPort.new m) is es s) :
    Serves (view m) es (view s.mem) ∧
    (∀ c : LoadCall, (s.mem.load c.data c.len c.offset).2 = none ↔ c.offset.toNat + c.len.toNat ≤ m.data.length) ∧
    (m.readOnly = true → ∀ x, view s.mem x = (lastByte (loaded m.data.length is) x).or (view m x)) := by
  obtain ⟨hv, hs⟩ := serves_run hrun
  refine ⟨hv, fun c => ?_, fun hro x => ?_⟩
  · rw [← hs.kind.length]
    rcases s.mem.load_cases c.buffer c.offset with ⟨hfit, he⟩ | ⟨hno, he⟩ <;> rw [he]
    · exact iff_of_true rfl hfit
    · exact iff_of_false (by simp) hno
  · rw [rom_run hro hrun, Store.writes_apply]

/-- A ROM of four bytes, loaded, and written over in vain. -/
theorem memory_load_rom : ∃ (es : List (StoreAccess UInt8)) (s : DmiPort),
    Run LoadedPort.machine (DmiPort.new ⟨[0, 0, 0, 0], true, 10000, by decide⟩)
      [.inr ⟨[7, 8], 2, 1, rfl⟩, .inl (.timed ⟨⟨.write, 1, some [9], 1, .incomplete, false⟩, [9], rfl, rfl⟩ 0)] es s ∧
    view s.mem 1 = some 7 := by
  have hrom {es : List (StoreAccess UInt8)} {s : DmiPort} (h : Run LoadedPort.machine
      (DmiPort.new ⟨[0, 0, 0, 0], true, 10000, by decide⟩) [.inr ⟨[7, 8], 2, 1, rfl⟩,
        .inl (.timed ⟨⟨.write, 1, some [9], 1, .incomplete, false⟩, [9], rfl, rfl⟩ 0)] es s) : view s.mem 1 = some 7 :=
    ((memory_load _ _ _ _ h).2.2 rfl 1).trans (by decide)
  exact ⟨_, _, .of_exec rfl, hrom (.of_exec rfl)⟩

end CdcVp
