import CdcVp.ElfEncode

/-!
# The two ELF classes

The loader reads a program's ELFCLASS32 file with each segment at its physical address and its
ELFCLASS64 file with each segment at its virtual address. `elf_classes_agree_iff` says for which
programs no bus can tell.
-/

namespace CdcVp
open FlatStore LittleEndian ExceptState MemoryBus

/-- Region `i` holds address `x`, and a RAM is bound there. -/
def RamCell (r : BusRouter) (mems : List MemoryTlm) (x i : Nat) : Prop :=
  ∃ (rg : AddressRange) (m : MemoryTlm), r.ranges[i]? = some rg ∧ mems[i]? = some m ∧ rg.Live ∧
    m.readOnly = false ∧ rg.Mem x

section
variable {r : BusRouter} {mems mems' : List MemoryTlm} {w : Block UInt8}

theorem ramCell_inj (h : Bound r mems) (x i j : Nat) (hi : RamCell r mems x i) (hj : RamCell r mems x j) :
    i = j := by
  obtain ⟨rg, m, hr, -, -, -, hx⟩ := hi
  obtain ⟨rg', m', hr', -, -, -, hx'⟩ := hj
  exact h.eq_of_mem hr hr' hx hx'

theorem inRam_iff_inCell (hpos : 0 < w.2.length) : InRam r mems w ↔ InCell (RamCell r mems) w := by
  constructor
  · rintro ⟨i, rg, m, hr, hm, hlive, hro, hlo, hhi⟩
    exact ⟨i, fun x ⟨h1, h2⟩ => ⟨rg, m, hr, hm, hlive, hro, by omega, by omega⟩⟩
  · rintro ⟨i, hi⟩
    obtain ⟨rg, m, hr, hm, hlive, hro, hlo, -⟩ := hi w.1 ⟨le_rfl, by omega⟩
    obtain ⟨rg', m', hr', -, -, -, -, hhi⟩ := hi (w.1 + w.2.length - 1) ⟨by omega, by omega⟩
    obtain rfl : rg = rg' := Option.some.inj (hr.symm.trans hr')
    exact ⟨i, rg, m, hr, hm, hlive, hro, hlo, by omega⟩

theorem data_eq_of_flat (h : Bound r mems) (h' : Bound r mems') (hf : flat r mems = flat r mems') :
    mems.map MemoryTlm.data = mems'.map MemoryTlm.data := by
  have hl : mems.length = r.ranges.length := by simpa using congrArg List.length h.sizes
  have hl' : mems'.length = r.ranges.length := by simpa using congrArg List.length h'.sizes
  refine List.ext_getElem (by simp [hl, hl']) ?_
  intro i h1 h2
  simp only [List.length_map] at h1 h2
  obtain ⟨rg, hr⟩ : ∃ rg, r.ranges[i]? = some rg := ⟨_, List.getElem?_eq_getElem (by omega)⟩
  have hm := List.getElem?_eq_getElem h1
  have hm' := List.getElem?_eq_getElem h2
  have hs := h.length hr hm
  have hs' := h'.length hr hm'
  simp only [List.getElem_map]
  refine List.ext_getElem? ?_
  intro k
  by_cases hk : k < rg.size.toNat
  · have hx : rg.Mem (rg.base.toNat + k) := ⟨by omega, by omega⟩
    have := congrFun hf (rg.base.toNat + k)
    rwa [h.flat_of_mem hr hm hx, h'.flat_of_mem hr hm' hx, Nat.add_sub_cancel_left] at this
  · rw [List.getElem?_eq_none (by omega), List.getElem?_eq_none (by omega)]

end

/-! ### Agreement -/

/-- `load_elf` of a file through the bus, from the memories `mems`. -/
def loadThrough (r : BusRouter) (mems : List MemoryTlm) (b : Image) :
    EStateM.Result ElfError (LoadState (List MemoryTlm)) UInt64 :=
  loadElf (r.transportDbg dbgSocket) "" (some b) ⟨mems, []⟩

/-- On every bus of disjoint RAM regions the two files are both refused, or both return the entry point
and leave the same memory contents, every segment at its physical address. -/
def ClassesAgree (p : Program) : Prop :=
  ∀ (r : BusRouter) (mems : List MemoryTlm), Bound r mems → (∀ m ∈ mems, m.readOnly = false) →
    (∃ e s e' s', loadThrough r mems p.elf32 = .error e s ∧ loadThrough r mems p.elf64 = .error e' s') ∨
    ∃ s s', loadThrough r mems p.elf32 = .ok (UInt64.ofNat p.entry) s ∧
      loadThrough r mems p.elf64 = .ok (UInt64.ofNat p.entry) s' ∧
      s.target.map MemoryTlm.data = s'.target.map MemoryTlm.data ∧
      Overwritten r mems (p.blocks Segment.paddr) s.target ∧
      Overwritten r mems (p.blocks Segment.paddr) s'.target

namespace Program
variable (p : Program)

theorem blocks_pos (addr : Segment → Nat) : ∀ w ∈ p.blocks addr, 0 < w.2.length := by
  intro w hw
  obtain ⟨s, -, hs⟩ := List.mem_filterMap.1 hw
  split at hs
  · cases hs
  · cases hs
    exact List.length_pos_of_ne_nil ‹_›

theorem blocks_le {addr : Segment → Nat} (ha : ∀ s, addr s < 2 ^ 32) :
    ∀ w ∈ p.blocks addr, w.1 + w.2.length < 2 ^ 33 := by
  intro w hw
  obtain ⟨s, -, hs⟩ := List.mem_filterMap.1 hw
  have := ha s
  have := s.size_lt
  split at hs
  · cases hs
  · cases hs
    dsimp only
    omega

variable {p}
variable {b : Image} {addr : Segment → Nat} {r : BusRouter} {mems : List MemoryTlm}

theorem Decodes.load (h : p.Decodes b addr) (hb : Bound r mems) :
    Ends (loadThrough r mems b)
      (fun x (s' : LoadState (List MemoryTlm)) => x = UInt64.ofNat p.entry ∧
        (∀ w ∈ p.blocks addr, InRam r mems w) ∧ Bound r s'.target ∧
        s'.target.map MemoryTlm.readOnly = mems.map MemoryTlm.readOnly ∧
        flat r s'.target = (flat r mems).writes (p.blocks addr))
      (fun _ _ => ∃ w ∈ p.blocks addr, ¬ InRam r mems w) := by
  have := loadElf_bus h.isElf h.loadable hb "" []
  rwa [h.placed_eq, h.entry] at this

end Program

/-! ### Buses that tell -/

section split

/-- RAM below `2 ^ 33`, in two regions that part at `k`. -/
def splitBus (k : Nat) : BusRouter where
  ranges := [⟨0, UInt64.ofNat k⟩, ⟨UInt64.ofNat k, UInt64.ofNat (2 ^ 33 - k)⟩]
  sockets := 2
  ranges_le := Nat.le_refl 2

def filled (c : UInt8) (n : Nat) (hn : n ≤ 2 ^ 33) : MemoryTlm where
  data := List.replicate n c
  readOnly := false
  accessLatency := 0
  size_lt := by rw [List.length_replicate]; omega

def splitMems (c : UInt8) (k : Nat) (hk : k ≤ 2 ^ 33) : List MemoryTlm :=
  [filled c k hk, filled c (2 ^ 33 - k) (Nat.sub_le _ _)]

variable {c : UInt8} {k : Nat} (hk : k ≤ 2 ^ 33)

theorem toNat_split (hk : k ≤ 2 ^ 33) :
    (UInt64.ofNat k).toNat = k ∧ (UInt64.ofNat (2 ^ 33 - k)).toNat = 2 ^ 33 - k := by
  rw [UInt64.toNat_ofNat', UInt64.toNat_ofNat']
  omega

theorem splitBus_bound : Bound (splitBus k) (splitMems c k hk) := by
  obtain ⟨h1, h2⟩ := toNat_split hk
  constructor
  · simp only [splitMems, splitBus, filled, List.map_cons, List.map_nil, List.length_replicate, h1, h2]
  · refine List.pairwise_pair.2 ?_
    intro x
    have h0 : (0 : UInt64).toNat = 0 := rfl
    simp only [AddressRange.Mem, h0, h1, h2]
    omega

theorem splitMems_ram : ∀ m ∈ splitMems c k hk, m.readOnly = false := by
  intro m hm
  rcases List.mem_pair.1 hm with rfl | rfl <;> rfl

theorem inRam_split_iff {w : Block UInt8} : InRam (splitBus k) (splitMems c k hk) w ↔
    w.1 + w.2.length ≤ k ∨ k ≤ w.1 ∧ w.1 + w.2.length ≤ 2 ^ 33 := by
  obtain ⟨h1, h2⟩ := toNat_split hk
  have h0 : (0 : UInt64).toNat = 0 := rfl
  constructor
  · rintro ⟨i, rg, m, hr, -, -, -, hlo, hhi⟩
    match i with
    | 0 =>
      obtain rfl : _ = rg := Option.some.inj hr
      rw [h0, h1] at hhi
      omega
    | 1 =>
      obtain rfl : _ = rg := Option.some.inj hr
      rw [h1] at hlo
      rw [h1, h2] at hhi
      omega
    | i + 2 => exact absurd hr (by simp [splitBus])
  · rintro (h | ⟨hlo, hhi⟩)
    · refine ⟨0, _, _, rfl, rfl, ?_, rfl, ?_, ?_⟩
      · rw [AddressRange.Live, h0, h1]; omega
      · rw [h0]; omega
      · rw [h0, h1]; omega
    · refine ⟨1, _, _, rfl, rfl, ?_, rfl, ?_, ?_⟩
      · rw [AddressRange.Live, h1, h2]; omega
      · rw [h1]; omega
      · rw [h1, h2]; omega

/-- A bus parted after `x` refuses exactly the lists of blocks that link `x` to the next address. -/
theorem split_refuses_iff {ws : List (Block UInt8)} (hws : ∀ w ∈ ws, w.1 + w.2.length < 2 ^ 33) {x : Nat}
    (hx : x + 1 ≤ 2 ^ 33) : (∀ w ∈ ws, InRam (splitBus (x + 1)) (splitMems c (x + 1) hx) w) ↔ ¬ Linked ws x := by
  simp only [inRam_split_iff]
  constructor
  · rintro h ⟨w, hw, ⟨h1, h2⟩, h3, h4⟩
    have := h w hw
    omega
  · intro h w hw
    have := hws w hw
    by_contra hn
    exact h ⟨w, hw, ⟨by omega, by omega⟩, ⟨by omega, by omega⟩⟩

theorem flat_split_zero (x : Nat) (hx : x < 2 ^ 33) :
    flat (splitBus 0) (splitMems c 0 (Nat.zero_le _)) x = some c := by
  obtain ⟨h1, h2⟩ := toNat_split (Nat.zero_le (2 ^ 33))
  have hin : AddressRange.Mem ⟨UInt64.ofNat 0, UInt64.ofNat (2 ^ 33 - 0)⟩ x :=
    ⟨by rw [h1]; omega, by rw [h1, h2]; omega⟩
  rw [(splitBus_bound (Nat.zero_le _)).flat_of_mem (i := 1) rfl rfl hin, h1]
  show (List.replicate _ c)[_]? = _
  rw [List.getElem?_replicate, if_pos (by omega)]

end split

theorem eq_of_or_some {o o' : Option UInt8} (h : ∀ c, o.or (some c) = o'.or (some c)) : o = o' := by
  have h0 := h 0
  have h1 := h 1
  cases o with
  | none =>
    cases o' with
    | none => rfl
    | some b => exact absurd (h0.trans h1.symm) (by simp)
  | some a =>
    cases o' with
    | none => exact absurd (h0.symm.trans h1) (by simp)
    | some b => exact h0

theorem flat_congr {r : BusRouter} {mems mems' : List MemoryTlm}
    (h : mems.map MemoryTlm.data = mems'.map MemoryTlm.data) : flat r mems = flat r mems' := by
  have hb (ms : List MemoryTlm) : blocks r ms =
      List.zipWith (fun rg d => (rg.base.toNat, d)) r.ranges (ms.map MemoryTlm.data) := by
    rw [List.zipWith_map_right]; rfl
  rw [flat, flat, hb, hb, h]

namespace Program
variable {p : Program}

theorem agree_cases (h : ClassesAgree p) {r : BusRouter} {mems : List MemoryTlm} (hb : Bound r mems)
    (hram : ∀ m ∈ mems, m.readOnly = false) :
    ((∀ w ∈ p.blocks Segment.paddr, InRam r mems w) ↔ ∀ w ∈ p.blocks Segment.vaddr, InRam r mems w) ∧
    ((∀ w ∈ p.blocks Segment.paddr, InRam r mems w) →
      (flat r mems).writes (p.blocks Segment.paddr) = (flat r mems).writes (p.blocks Segment.vaddr)) := by
  have h32 := (decodes_elf32 p).load hb
  have h64 := (decodes_elf64 p).load hb
  rcases h r mems hb hram with ⟨e, s, e', s', r32, r64⟩ | ⟨s, s', r32, r64, hdata, -, -⟩
  · rw [r32] at h32
    rw [r64] at h64
    obtain ⟨w, hw, hno⟩ := h32
    obtain ⟨w', hw', hno'⟩ := h64
    have hnot : ¬ ∀ w ∈ p.blocks Segment.paddr, InRam r mems w := fun hall => hno (hall w hw)
    exact ⟨iff_of_false hnot fun hall => hno' (hall w' hw'), fun hall => absurd hall hnot⟩
  · rw [r32] at h32
    rw [r64] at h64
    obtain ⟨-, hin, -, -, hflat⟩ := h32
    obtain ⟨-, hin', -, -, hflat'⟩ := h64
    exact ⟨iff_of_true hin hin', fun _ => by rw [← hflat, ← hflat', flat_congr hdata]⟩

theorem samePlacement_of_agree (h : ClassesAgree p) :
    SamePlacement (p.blocks Segment.paddr) (p.blocks Segment.vaddr) := by
  have hp := p.blocks_le Segment.paddr_lt
  have hv := p.blocks_le Segment.vaddr_lt
  constructor
  · have key (c : UInt8) (x : Nat) : (lastByte (p.blocks Segment.paddr) x).or (some c) =
        (lastByte (p.blocks Segment.vaddr) x).or (some c) := by
      by_cases hx : x < 2 ^ 33
      · have hb := splitBus_bound (c := c) (Nat.zero_le (2 ^ 33))
        have he := (agree_cases h hb (splitMems_ram _)).2 fun w hw =>
          (inRam_split_iff _).2 (.inr ⟨Nat.zero_le _, (hp w hw).le⟩)
        have := congrFun he x
        rwa [Store.writes_apply, Store.writes_apply, flat_split_zero x hx] at this
      · have hnone {ws : List (Block UInt8)} (hws : ∀ w ∈ ws, w.1 + w.2.length < 2 ^ 33) :
            lastByte ws x = none := lastByte_eq_none.2 fun w hw hc => by
          have := hws w hw
          have := hc.2
          omega
        rw [hnone hp, hnone hv]
    exact fun x => eq_of_or_some fun c => key c x
  · intro x
    by_cases hx : x + 1 ≤ 2 ^ 33
    · have := (agree_cases h (splitBus_bound (c := 0) hx) (splitMems_ram hx)).1
      rw [split_refuses_iff hp, split_refuses_iff hv] at this
      exact not_iff_not.1 this
    · have hno {ws : List (Block UInt8)} (hws : ∀ w ∈ ws, w.1 + w.2.length < 2 ^ 33) : ¬ Linked ws x := by
        rintro ⟨w, hw, -, hc⟩
        have := hws w hw
        have := hc.2
        omega
      exact iff_of_false (hno hp) (hno hv)

end Program

/-- The two files of a program agree on every bus iff its segments make up the same bytes, joined the same
way, at their virtual and at their physical addresses. -/
theorem elf_classes_agree_iff (p : Program) :
    ClassesAgree p ↔ SamePlacement (p.blocks Segment.paddr) (p.blocks Segment.vaddr) := by
  refine ⟨Program.samePlacement_of_agree, ?_⟩
  intro hs r mems hb _
  have h32 := p.decodes_elf32.load hb
  have h64 := p.decodes_elf64.load hb
  have hpos := p.blocks_pos
  have hram : (∀ w ∈ p.blocks Segment.paddr, InRam r mems w) ↔
      ∀ w ∈ p.blocks Segment.vaddr, InRam r mems w := by
    rw [forall₂_congr fun w hw => inRam_iff_inCell (hpos _ w hw), forall₂_congr fun w hw =>
      inRam_iff_inCell (hpos _ w hw)]
    exact hs.all_inCell_iff (ramCell_inj hb) (hpos _) (hpos _)
  cases r32 : loadThrough r mems p.elf32 with
  | error e s =>
    rw [r32] at h32
    obtain ⟨w, hw, hno⟩ := h32
    cases r64 : loadThrough r mems p.elf64 with
    | error e' s' => exact .inl ⟨e, s, e', s', rfl, rfl⟩
    | ok x' s' =>
      rw [r64] at h64
      exact absurd (hram.2 h64.2.1 w hw) hno
  | ok x s =>
    rw [r32] at h32
    obtain ⟨rfl, hin, hbd, hro, hflat⟩ := h32
    cases r64 : loadThrough r mems p.elf64 with
    | error e' s' =>
      rw [r64] at h64
      obtain ⟨w, hw, hno⟩ := h64
      exact absurd (hram.1 hin w hw) hno
    | ok x' s' =>
      rw [r64] at h64
      obtain ⟨rfl, -, hbd', hro', hflat'⟩ := h64
      rw [← hs.writes] at hflat'
      exact .inr ⟨s, s', rfl, rfl, data_eq_of_flat hbd hbd' (hflat.trans hflat'.symm),
        hb.overwritten hbd hro hflat, hb.overwritten hbd' hro' hflat'⟩

def relocated : Program where
  entry := 0x20
  segments := [⟨0x20, 0x10, [7], by decide, by decide, by decide⟩]
  entry_lt := by decide
  nonempty := by simp
  count_lt := by decide
  offset_lt := by decide

/-- With RAM at the physical address only, the ELFCLASS32 file loads and the ELFCLASS64 file is refused. -/
theorem not_classesAgree_relocated : ¬ ∀ p : Program, ClassesAgree p := by
  intro h
  have hb : Bound ⟨[⟨0x10, 4⟩], 1, by decide⟩ [⟨[0, 0, 0, 0], false, 0, by decide⟩] :=
    ⟨by decide, List.pairwise_singleton _ _⟩
  have hin := (Program.agree_cases (h relocated) hb (by simp)).1.1 fun w hw => by
    obtain rfl : w = (0x10, [7]) := by simpa [relocated, Program.blocks] using hw
    exact ⟨0, _, _, rfl, rfl, show 0x10 + 4 < 2 ^ 64 by decide, rfl, by decide, by decide⟩
  obtain ⟨i, rg, m, hr, -, -, -, -, hhi⟩ := hin (0x20, [7]) (by simp [relocated, Program.blocks])
  cases i with
  | zero =>
    obtain rfl : _ = rg := Option.some.inj hr
    exact absurd hhi (by decide)
  | succ i => exact absurd hr (by simp)

end CdcVp
