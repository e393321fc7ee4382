import CdcVp.ElfSafety
import CdcVp.FlatBus

/-!
# Loading through the bus

`load_elf` on a router over memories writes the flat store: the segments in header order if each lies
in one RAM region (`InRam`), and it throws otherwise (`loadElf_bus`). `loadElf_bus_image` says it of a
well-formed ELF32 file.
-/

namespace CdcVp
open FlatStore LittleEndian ExceptState

namespace MemoryBus

/-- The block lies in one region that the router can decode to, and a RAM is bound there. -/
def InRam (r : BusRouter) (mems : List MemoryTlm) (w : Block UInt8) : Prop :=
  ∃ (i : Nat) (rg : AddressRange) (m : MemoryTlm), r.ranges[i]? = some rg ∧ mems[i]? = some m ∧
    rg.Live ∧ m.readOnly = false ∧ rg.base.toNat ≤ w.1 ∧ w.1 + w.2.length ≤ rg.base.toNat + rg.size.toNat

section
variable {r : BusRouter} {mems mems' : List MemoryTlm} {trans : Payload} {buf : List UInt8}
  {w : Block UInt8} {ws : List (Block UInt8)}

theorem served_iff_inRam (hb : trans.HasBuffer buf) (hw : trans.command = .write) (hpos : 0 < buf.length) :
    Served r mems trans ↔ InRam r mems (trans.address.toNat, buf) := by
  have hl := hb.2
  constructor
  · rintro ⟨i, rg, m, hit, ha⟩
    have hro : m.readOnly = false := by simpa [MemoryTlm.Allows, hw] using ha
    exact ⟨i, rg, m, hit.range, hit.mem, hit.live, hro, hit.inside.1, by
      have := hit.span; dsimp only; omega⟩
  · rintro ⟨i, rg, m, hr, hm, hlive, hro, hlo, hhi⟩
    dsimp only at hlo hhi
    exact ⟨i, rg, m, ⟨hr, hm, hlive, ⟨hlo, by omega⟩, by omega⟩, .inr ⟨hw, hro⟩⟩

theorem InRam.congr (h' : Bound r mems')
    (hro : mems'.map MemoryTlm.readOnly = mems.map MemoryTlm.readOnly) (h : InRam r mems w) :
    InRam r mems' w := by
  obtain ⟨i, rg, m, hr, hm, hlive, hmro, hlo, hhi⟩ := h
  obtain ⟨m', hm', -⟩ := h'.mem hr
  exact ⟨i, rg, m', hr, hm', hlive, (getElem?_readOnly hro hm' hm).trans hmro, hlo, hhi⟩

/-- The memories hold `ws` over what they held before, and are otherwise the same. -/
structure Overwritten (r : BusRouter) (mems : List MemoryTlm) (ws : List (Block UInt8))
    (mems' : List MemoryTlm) : Prop where
  length : mems'.length = mems.length
  readOnly : mems'.map MemoryTlm.readOnly = mems.map MemoryTlm.readOnly
  byte : ∀ (i : Nat) (rg : AddressRange) (m m' : MemoryTlm), r.ranges[i]? = some rg →
    mems[i]? = some m → mems'[i]? = some m' → m'.data.length = m.data.length ∧
      ∀ k < m.data.length, m'.data[k]? = (lastByte ws (rg.base.toNat + k)).or m.data[k]?

theorem Bound.overwritten (h : Bound r mems) (h' : Bound r mems')
    (hro : mems'.map MemoryTlm.readOnly = mems.map MemoryTlm.readOnly)
    (hflat : flat r mems' = (flat r mems).writes ws) : Overwritten r mems ws mems' where
  length := by simpa using congrArg List.length hro
  readOnly := hro
  byte i rg m m' hr hm hm' := by
    have hl := h.length hr hm
    have hl' := h'.length hr hm'
    refine ⟨hl'.trans hl.symm, ?_⟩
    intro k hk
    have hx : rg.Mem (rg.base.toNat + k) := ⟨by omega, by omega⟩
    have he := congrFun hflat (rg.base.toNat + k)
    rw [Store.writes_apply, h.flat_of_mem hr hm hx, h'.flat_of_mem hr hm' hx, Nat.add_sub_cancel_left] at he
    exact he

end
end MemoryBus

/-! ### The segments of a file -/

def PhdrAction.block (b : Image) : PhdrAction → Option (Block UInt8)
  | .load addr offset filesz => some (addr, (b.bytes.drop offset).take filesz)
  | _ => none

/-- The segments the first `n` headers place, in order. -/
def placed (b : Image) (n : Nat) : List (Block UInt8) :=
  (List.range n).filterMap fun i => (action b i).block b

def Loadable (b : Image) : Prop := ∀ i < ePhnum b b.is64, action b i = .skip ∨
  ∃ addr offset filesz, action b i = .load addr offset filesz ∧
    offset + filesz ≤ b.bytes.length ∧ filesz < 2 ^ 32

section
variable {b : Image} {i n : Nat}

theorem placed_succ (b : Image) (n : Nat) :
    placed b (n + 1) = placed b n ++ ((action b n).block b).toList := by
  rw [placed, List.range_succ, List.filterMap_append]
  cases h : (action b n).block b <;> simp [placed, h]

theorem mem_placed {w : Block UInt8} (hi : i < n) (h : (action b i).block b = some w) :
    w ∈ placed b n :=
  List.mem_filterMap.2 ⟨i, List.mem_range.2 hi, h⟩

theorem Image.data_eq {off : UInt64} {len : UInt32} (h : off.toNat + len.toNat ≤ b.bytes.length) :
    b.data off len = (b.bytes.drop off.toNat).take len.toNat := by
  refine List.ext_getElem (by simp [Image.data]; omega) ?_
  intro j h1 h2
  simp only [Image.data, List.length_map, List.length_range] at h1
  simp only [Image.data, List.getElem_map, List.getElem_range, List.getElem_take, List.getElem_drop]
  rw [List.getD_eq_getElem _ _ (by omega)]

open MemoryBus

variable {r : BusRouter} {mems : List MemoryTlm} {log : List Access}

/-- One backdoor write: the block goes to the flat store if it lies in a RAM, and the loader throws if
it does not. -/
theorem dbgWriteOf_bus {addr offset filesz : Nat} (h : Bound r mems)
    (ha : action b i = .load addr offset filesz) (hle : offset + filesz ≤ b.bytes.length)
    (hz : filesz < 2 ^ 32) :
    let w := (addr, (b.bytes.drop offset).take filesz)
    Ends (dbgWriteOf (r.transportDbg dbgSocket) b addr offset filesz ⟨mems, log⟩)
      (fun _ (s' : LoadState (List MemoryTlm)) => InRam r mems w ∧ Bound r s'.target ∧
        s'.target.map MemoryTlm.readOnly = mems.map MemoryTlm.readOnly ∧
        flat r s'.target = (flat r mems).write w)
      (fun _ _ => ¬ InRam r mems w) := by
  obtain ⟨⟨-, -, hpos, -⟩, haddr, hoff, hfil⟩ := phdrAction_load_iff.1 ha
  have e1 : (UInt64.ofNat addr).toNat = addr := by
    rw [UInt64.toNat_ofNat', Nat.mod_eq_of_lt (haddr ▸ pLoadAddr_lt ..)]
  obtain ⟨e2, e3⟩ := toNat_handedOf (hoff ▸ pOffset_lt b b.is64 (phAt b i).toNat)
    (hfil ▸ pFilesz_lt b b.is64 (phAt b i).toNat)
  rw [Nat.mod_eq_of_lt hz] at e3
  have hdata : b.data (UInt64.ofNat offset) (UInt64.ofNat filesz).toUInt32 = _ :=
    Image.data_eq (by rw [e2, e3]; exact hle)
  rw [e2, e3] at hdata
  have hlen : ((b.bytes.drop offset).take filesz).length = filesz := by simp; omega
  obtain ⟨trans, htr⟩ : ∃ trans : Payload, trans = ⟨.write, UInt64.ofNat addr,
    some ((b.bytes.drop offset).take filesz), (UInt64.ofNat filesz).toUInt32, .incomplete, false⟩ := ⟨_, rfl⟩
  have hb : trans.HasBuffer ((b.bytes.drop offset).take filesz) := by
    subst htr; exact ⟨rfl, by rw [hlen, e3]⟩
  have hw : trans.command = .write := by subst htr; rfl
  have hta : trans.address.toNat = addr := by subst htr; exact e1
  have htl : (UInt64.ofNat filesz).toUInt32 = trans.dataLength := by subst htr; rfl
  have hin : Served r mems trans ↔ _ := served_iff_inRam hb hw (by omega)
  rw [hta] at hin
  rw [dbgWriteOf, dbgWrite_run, hdata, ← htr]
  dsimp only
  rcases transportDbg_write h hb hw (by omega) with ⟨j, rg, m, hit, hro, he⟩ | ⟨hn, hne⟩
  · rw [he, htl, if_pos rfl]
    have hlo := hit.inside.1
    refine ⟨hin.1 ⟨j, rg, m, hit, .inr ⟨hw, hro⟩⟩, h.store hit.mem _ _,
      map_readOnly_store hit.mem _ _, ?_⟩
    rw [h.flat_store hit.range hit.mem (hit.fits h hb), Nat.add_sub_cancel' hlo, hta]
  · rw [htl, if_neg hne]
    exact fun hram => hn (hin.2 hram)

/-- `load_elf` through the bus: every segment stored in order and `e_entry` returned if every segment
lies in a RAM region, an exception if one does not. -/
theorem loadElf_bus (helf : IsElf b) (hload : Loadable b) (h : Bound r mems) (path : String)
    (log : List Access) :
    Ends (loadElf (r.transportDbg dbgSocket) path (some b) ⟨mems, log⟩)
      (fun x (s' : LoadState (List MemoryTlm)) => x = UInt64.ofNat (eEntry b b.is64) ∧
        (∀ w ∈ placed b (ePhnum b b.is64), InRam r mems w) ∧ Bound r s'.target ∧
        s'.target.map MemoryTlm.readOnly = mems.map MemoryTlm.readOnly ∧
        flat r s'.target = (flat r mems).writes (placed b (ePhnum b b.is64)))
      (fun _ _ => ∃ w ∈ placed b (ePhnum b b.is64), ¬ InRam r mems w) := by
  obtain ⟨l, -, he⟩ := loadElf_spec (r.transportDbg dbgSocket) path ⟨mems, log⟩ helf
  rw [he]
  refine .bind ((forM_range (fun i (s' : LoadState (List MemoryTlm)) =>
    (∀ w ∈ placed b i, InRam r mems w) ∧ Bound r s'.target ∧
    s'.target.map MemoryTlm.readOnly = mems.map MemoryTlm.readOnly ∧
    flat r s'.target = (flat r mems).writes (placed b i)) _ ?_
    ⟨by simp [placed], h, rfl, rfl⟩).mono (fun _ s' hs' => ⟨rfl, hs'⟩) fun _ _ hs' => hs')
  rintro i hi s ⟨hin, hbd, hro, hflat⟩
  obtain ⟨l, l', -, -, hspec⟩ := turn_spec (r.transportDbg dbgSocket) b i s
  rcases hload i hi with ha | ⟨addr, offset, filesz, ha, hle, hz⟩
  · have hblock : (action b i).block b = none := by rw [ha]; rfl
    rw [ha] at hspec
    rw [hspec, Ends.ok_iff, placed_succ, hblock, Option.toList_none, List.append_nil]
    exact ⟨hin, hbd, hro, hflat⟩
  · have hblock : (action b i).block b = some (addr, (b.bytes.drop offset).take filesz) := by rw [ha]; rfl
    rw [ha] at hspec
    rw [hspec]
    refine (dbgWriteOf_bus hbd ha hle hz).mono (fun _ s' ⟨hram, hbd', hro', hflat'⟩ => ?_) fun _ _ hno => ?_
    · rw [placed_succ, hblock, Option.toList_some, Store.writes_concat, ← hflat]
      refine ⟨fun w hw => ?_, hbd', hro'.trans hro, hflat'⟩
      rcases List.mem_append.1 hw with hw | hw
      · exact hin w hw
      · rw [List.mem_singleton.1 hw]
        exact hram.congr h hro.symm
    · exact ⟨_, mem_placed hi hblock, fun hram => hno (hram.congr hbd hro)⟩

end

/-! ### ELF32 files -/

/-- A little-endian ELFCLASS32 file whose program headers and segments lie in it. -/
structure WellFormed32 (b : Image) : Prop where
  size : 64 ≤ b.bytes.length
  magic : b.bytes.take 4 = [0x7F, 0x45, 0x4C, 0x46]
  eiClass : b.bytes.getD 4 0 = 1
  eiData : b.bytes.getD 5 0 = 1
  phentsize : 32 ≤ ePhentsize b false
  product : ePhnum b false * ePhentsize b false < 2 ^ 31
  headers : ∀ i < ePhnum b false,
    ePhoff b false + i * ePhentsize b false + ePhentsize b false ≤ b.bytes.length
  segments : ∀ i < ePhnum b false, pType b (ePhoff b false + i * ePhentsize b false) = 1 →
    0 < pFilesz b false (ePhoff b false + i * ePhentsize b false) →
    pOffset b false (ePhoff b false + i * ePhentsize b false) +
      pFilesz b false (ePhoff b false + i * ePhentsize b false) ≤ b.bytes.length

/-- The `PT_LOAD` segments with `p_filesz > 0` in program-header order, each the file bytes at its
`p_paddr`. -/
def segments32 (b : Image) : List (Block UInt8) :=
  (List.range (ePhnum b false)).filterMap fun i =>
    let ph := ePhoff b false + i * ePhentsize b false
    if pType b ph = 1 ∧ 0 < pFilesz b false ph then
      some (pLoadAddr b false ph, (b.bytes.drop (pOffset b false ph)).take (pFilesz b false ph))
    else none

namespace WellFormed32
variable {b : Image} {i : Nat}

theorem is64 (h : WellFormed32 b) : b.is64 = false := by
  rw [Image.is64, h.eiClass]; rfl

theorem isElf (h : WellFormed32 b) : IsElf b := ⟨h.size, h.magic, h.eiData⟩

theorem phAt (h : WellFormed32 b) (hi : i < ePhnum b false) :
    (phAt b i).toNat = ePhoff b false + i * ePhentsize b false := by
  have hpe : i * ePhentsize b false ≤ ePhnum b false * ePhentsize b false := Nat.mul_le_mul_right _ hi.le
  have := h.headers i hi
  have := h.product
  have := b.size_lt
  have hfits : PhFits b i := by
    rw [PhFits, phExact, h.is64]; omega
  rw [(phAt_eq_iff b (h.is64.symm ▸ hi)).2 hfits, phExact, h.is64]

theorem action (h : WellFormed32 b) (hi : i < ePhnum b false) :
    let ph := ePhoff b false + i * ePhentsize b false
    action b i = if pType b ph = 1 ∧ 0 < pFilesz b false ph then
      .load (pLoadAddr b false ph) (pOffset b false ph) (pFilesz b false ph) else .skip := by
  have hpa := h.phAt hi
  have hseg := h.segments i hi
  have hhdr := h.headers i hi
  have hsz := h.phentsize
  dsimp only
  generalize ePhoff b false + i * ePhentsize b false = ph at hpa hseg hhdr ⊢
  have ho : pOffset b false ph < 2 ^ 32 := field_lt
  have hz : pFilesz b false ph < 2 ^ 32 := field_lt
  rw [CdcVp.action, h.is64, hpa]
  unfold phdrAction
  rw [if_neg (by omega)]
  by_cases h1 : pType b ph = 1
  · have hext : ¬ ¬ ph + pExtent false ≤ b.bytes.length := not_not.2 (by
      show ph + 20 ≤ _
      omega)
    rw [if_neg (not_not.2 h1), if_neg hext]
    by_cases h2 : pFilesz b false ph = 0
    · rw [if_pos h2, if_neg (by omega)]
    · have hle : pOffset b false ph + pFilesz b false ph ≤ b.bytes.length := hseg h1 (by omega)
      rw [if_neg h2, if_neg (by omega), if_pos ⟨h1, by omega⟩]
  · rw [if_pos h1, if_neg (fun hn => h1 hn.1)]

theorem loadable (h : WellFormed32 b) : Loadable b := by
  intro i hi
  rw [h.is64] at hi
  rw [h.action hi]
  split
  · rename_i hs
    exact .inr ⟨_, _, _, rfl, h.segments i hi hs.1 hs.2, field_lt⟩
  · exact .inl rfl

theorem placed_eq (h : WellFormed32 b) : placed b (ePhnum b b.is64) = segments32 b := by
  rw [placed, segments32, h.is64]
  refine List.filterMap_congr ?_
  intro i hi
  rw [h.action (List.mem_range.1 hi)]
  dsimp only
  split <;> rfl

end WellFormed32

open MemoryBus

/-- Loading an ELF32 file through the bus is exactly the image: if every segment lies in one RAM region
the entry point comes back and the memories hold the segments, in header order, over what they held;
if one does not, the loader throws. -/
theorem loadElf_bus_image (b : Image) (hb : WellFormed32 b) (r : BusRouter) (mems : List MemoryTlm)
    (h : Bound r mems) (path : String) (log : List Access) :
    let res := loadElf (r.transportDbg dbgSocket) path (some b) ⟨mems, log⟩
    ((∀ w ∈ segments32 b, InRam r mems w) → ∃ s', res = .ok (UInt64.ofNat (eEntry b false)) s' ∧
      Overwritten r mems (segments32 b) s'.target) ∧
    ((∃ w ∈ segments32 b, ¬ InRam r mems w) → ∃ e s', res = .error e s') := by
  intro res
  have hrun := loadElf_bus hb.isElf hb.loadable h path log
  rw [hb.placed_eq, hb.is64] at hrun
  cases hres : res with
  | ok x s' =>
    rw [show loadElf (r.transportDbg dbgSocket) path (some b) ⟨mems, log⟩ = _ from hres] at hrun
    obtain ⟨rfl, hin, hbd, hro, hflat⟩ := hrun
    exact ⟨fun _ => ⟨s', rfl, h.overwritten hbd hro hflat⟩, fun ⟨w, hw, hno⟩ => absurd (hin w hw) hno⟩
  | error e s' =>
    rw [show loadElf (r.transportDbg dbgSocket) path (some b) ⟨mems, log⟩ = _ from hres] at hrun
    obtain ⟨w, hw, hno⟩ := hrun
    exact ⟨fun hall => absurd (hall w hw) hno, fun _ => ⟨e, s', rfl⟩⟩

/-- An ELF32 file of 87 bytes with entry 0x20 and one segment, three bytes at 0x11. -/
def tiny32 : Image where
  bytes := [0x7F, 0x45, 0x4C, 0x46, 1, 1, 1] ++ List.replicate 17 0 ++ bytes 4 0x20 ++ bytes 4 52 ++
    List.replicate 10 0 ++ bytes 2 32 ++ bytes 2 1 ++ List.replicate 6 0 ++
    bytes 4 1 ++ bytes 4 84 ++ bytes 4 0 ++ bytes 4 0x11 ++ bytes 4 3 ++ bytes 4 3 ++ bytes 4 7 ++ bytes 4 1 ++
    [7, 8, 9]
  size_lt := by decide

theorem wellFormed32_tiny32 : WellFormed32 tiny32 where
  size := by decide +kernel
  magic := by decide +kernel
  eiClass := by decide +kernel
  eiData := by decide +kernel
  phentsize := by decide +kernel
  product := by decide +kernel
  headers := by decide +kernel
  segments := by decide +kernel

theorem segments32_tiny32 : segments32 tiny32 = [(0x11, [7, 8, 9])] := by decide +kernel

theorem loadElf_bus_image_tiny32 : ∃ s', loadElf (twoBanks.transportDbg dbgSocket) "tiny" (some tiny32)
    ⟨twoBanksMems, []⟩ = .ok (UInt64.ofNat (eEntry tiny32 false)) s' ∧
    Overwritten twoBanks twoBanksMems (segments32 tiny32) s'.target := by
  refine (loadElf_bus_image tiny32 wellFormed32_tiny32 twoBanks twoBanksMems twoBanks_bound "tiny" []).1 ?_
  rw [segments32_tiny32]
  intro w hw
  rw [List.mem_singleton.1 hw]
  exact ⟨0, ⟨0x10, 4⟩, ⟨[0, 0, 0, 0], false, 10000, by decide⟩, rfl, rfl,
    show 0x10 + 4 < 2 ^ 64 by decide, rfl, by decide, by decide⟩

end CdcVp
