import CdcVp.ElfBus

/-!
# Encoding a program as an ELF file

A `Program` is an entry point and loadable segments. `elf32` and `elf64` lay it out as the ELF
specification does: file header, program header table, segment contents. The two tables hold the same
fields in a different order (`phdr32`, `phdr64`). `action_elf32` and `action_elf64` say what the loader
makes of each header.
-/

namespace CdcVp
open FlatStore LittleEndian ExceptState

structure Segment where
  vaddr : Nat
  paddr : Nat
  bytes : List UInt8
  vaddr_lt : vaddr < 2 ^ 32
  paddr_lt : paddr < 2 ^ 32
  size_lt : bytes.length < 2 ^ 32

/-- Where the contents of the first `i` segments end, laid out from offset 0. -/
def contentOffset (segs : List Segment) (i : Nat) : Nat := ((segs.take i).map fun s => s.bytes.length).sum

/-- An abstract program; its numbers fit the 32-bit fields and `e_phnum`. -/
structure Program where
  entry : Nat
  segments : List Segment
  entry_lt : entry < 2 ^ 32
  nonempty : segments ≠ []
  count_lt : segments.length < 2 ^ 16
  offset_lt : ∀ i < segments.length, 52 + 32 * segments.length + contentOffset segments i < 2 ^ 32

/-- `e_ident` of a little-endian file of class `cls`. -/
def ident (cls : UInt8) : List UInt8 := [0x7F, 0x45, 0x4C, 0x46, cls, 1, 1, 0, 0, 0, 0, 0, 0, 0, 0, 0]

/-- `Elf32_Ehdr` after `e_ident`, each field with its width, for `n` program headers. -/
def ehdr32 (entry n : Nat) : List (Nat × Nat) :=
  [(2, 2), (2, 243), (4, 1), (4, entry), (4, 52), (4, 0), (4, 0), (2, 52), (2, 32), (2, n), (2, 40), (2, 0),
    (2, 0)]

/-- `Elf64_Ehdr` after `e_ident`. -/
def ehdr64 (entry n : Nat) : List (Nat × Nat) :=
  [(2, 2), (2, 243), (4, 1), (8, entry), (8, 64), (8, 0), (4, 0), (2, 64), (2, 56), (2, n), (2, 64), (2, 0),
    (2, 0)]

/-- `Elf32_Phdr` of a segment whose contents stand at file offset `off`: `p_type`, `p_offset`, `p_vaddr`,
`p_paddr`, `p_filesz`, `p_memsz`, `p_flags`, `p_align`. -/
def phdr32 (off : Nat) (s : Segment) : List (Nat × Nat) :=
  [(4, 1), (4, off), (4, s.vaddr), (4, s.paddr), (4, s.bytes.length), (4, s.bytes.length), (4, 7), (4, 1)]

/-- `Elf64_Phdr`: `p_type`, `p_flags`, `p_offset`, `p_vaddr`, `p_paddr`, `p_filesz`, `p_memsz`, `p_align`. -/
def phdr64 (off : Nat) (s : Segment) : List (Nat × Nat) :=
  [(4, 1), (4, 7), (8, off), (8, s.vaddr), (8, s.paddr), (8, s.bytes.length), (8, s.bytes.length), (8, 1)]

/-- The program header table, the contents of the first segment standing at `off`. -/
def phdrs (phdr : Nat → Segment → List (Nat × Nat)) (off : Nat) (segs : List Segment) : List UInt8 :=
  segs.zipIdx.flatMap fun e => record (phdr (off + contentOffset segs e.2) e.1)

def encode (cls : UInt8) (ehdr : List (Nat × Nat)) (phdr : Nat → Segment → List (Nat × Nat)) (off : Nat)
    (segs : List Segment) : List UInt8 :=
  ident cls ++ record ehdr ++ phdrs phdr off segs ++ segs.flatMap Segment.bytes

section
variable (cls : UInt8) (ehdr : List (Nat × Nat)) {phdr : Nat → Segment → List (Nat × Nat)} (off : Nat)
  (segs : List Segment) {w : Nat} {s : Segment} {i : Nat}

theorem length_phdrs (hw : ∀ o t, (record (phdr o t)).length = w) (n : Nat) :
    ((segs.zipIdx.take n).flatMap fun e => record (phdr (off + contentOffset segs e.2) e.1)).length =
      min n segs.length * w := by
  simp [List.length_flatMap, hw]

theorem length_contents (n : Nat) : ((segs.take n).flatMap Segment.bytes).length = contentOffset segs n := by
  simp [contentOffset, List.length_flatMap]

theorem encode_phdr (hw : ∀ o t, (record (phdr o t)).length = w) (hs : segs[i]? = some s) :
    ∃ pre post, encode cls ehdr phdr off segs = pre ++ record (phdr (off + contentOffset segs i) s) ++ post ∧
      pre.length = 16 + (record ehdr).length + i * w := by
  obtain ⟨hi, -⟩ := List.getElem?_eq_some_iff.1 hs
  have hz : segs.zipIdx[i]? = some (s, i) := by simp [hs]
  refine ⟨ident cls ++ record ehdr ++ (segs.zipIdx.take i).flatMap fun e =>
      record (phdr (off + contentOffset segs e.2) e.1),
    ((segs.zipIdx.drop (i + 1)).flatMap fun e => record (phdr (off + contentOffset segs e.2) e.1)) ++
      segs.flatMap Segment.bytes, ?_, ?_⟩
  · simp only [encode, phdrs, flatMap_split hz, List.append_assoc]
  · simp only [List.length_append, length_phdrs off segs hw, Nat.min_eq_left hi.le]
    rfl

theorem encode_contents (hw : ∀ o t, (record (phdr o t)).length = w)
    (hoff : off = 16 + (record ehdr).length + segs.length * w) (hs : segs[i]? = some s) :
    off + contentOffset segs i + s.bytes.length ≤ (encode cls ehdr phdr off segs).length ∧
      ((encode cls ehdr phdr off segs).drop (off + contentOffset segs i)).take s.bytes.length = s.bytes := by
  have hpre : (ident cls ++ record ehdr ++ phdrs phdr off segs ++
      (segs.take i).flatMap Segment.bytes).length = off + contentOffset segs i := by
    have := length_phdrs off segs hw segs.length
    rw [List.take_of_length_le (by simp), Nat.min_self] at this
    simp only [List.length_append, length_contents, phdrs, this]
    rw [hoff]; rfl
  have he : encode cls ehdr phdr off segs = (ident cls ++ record ehdr ++ phdrs phdr off segs ++
      (segs.take i).flatMap Segment.bytes) ++ (s.bytes ++ (segs.drop (i + 1)).flatMap Segment.bytes) := by
    simp only [encode, flatMap_split hs, List.append_assoc]
  rw [he, ← hpre]
  refine ⟨by simp only [List.length_append]; omega, ?_⟩
  rw [List.drop_left, List.take_left]

theorem contentOffset_succ (hs : segs[i]? = some s) :
    contentOffset segs (i + 1) = contentOffset segs i + s.bytes.length := by
  simp [contentOffset, List.take_add_one, hs]

theorem length_encode (hw : ∀ o t, (record (phdr o t)).length = w) :
    (encode cls ehdr phdr off segs).length =
      16 + (record ehdr).length + segs.length * w + contentOffset segs segs.length := by
  have h1 := length_phdrs off segs hw segs.length
  rw [List.take_of_length_le (by simp), Nat.min_self] at h1
  have h2 := length_contents segs segs.length
  rw [List.take_length] at h2
  simp only [encode, phdrs, List.length_append, h1, h2]
  rfl

theorem field_ehdr {o j k n : Nat} (h : ehdr[j]? = some (k, n)) (hn : n < 256 ^ k)
    (ho : 16 + offset ehdr j = o) : field (encode cls ehdr phdr off segs) o k = n := by
  rw [← ho]
  have he : encode cls ehdr phdr off segs = ident cls ++ record ehdr ++
      (phdrs phdr off segs ++ segs.flatMap Segment.bytes) := by simp only [encode, List.append_assoc]
  exact field_record he h hn

theorem field_phdr (hw : ∀ o t, (record (phdr o t)).length = w) (hs : segs[i]? = some s) {o j k n : Nat}
    (h : (phdr (off + contentOffset segs i) s)[j]? = some (k, n)) (hn : n < 256 ^ k)
    (ho : offset (phdr (off + contentOffset segs i) s) j = o) :
    field (encode cls ehdr phdr off segs) (16 + (record ehdr).length + i * w + o) k = n := by
  obtain ⟨pre, post, he, hpre⟩ := encode_phdr cls ehdr off segs hw hs
  rw [← hpre, ← ho]
  exact field_record he h hn

end

namespace Program
variable (p : Program)

theorem contentOffset_lt : 52 + 32 * p.segments.length + contentOffset p.segments p.segments.length < 2 ^ 33 := by
  obtain ⟨n, hn⟩ : ∃ n, p.segments.length = n + 1 :=
    Nat.exists_eq_succ_of_ne_zero (mt List.length_eq_zero_iff.1 p.nonempty)
  have hlast := List.getElem?_eq_getElem (l := p.segments) (i := n) (by omega)
  have := p.offset_lt n (by omega)
  have := p.segments[n].size_lt
  have hsum := contentOffset_succ p.segments hlast
  rw [← hn] at hsum
  omega

theorem length_phdr32 (o : Nat) (s : Segment) : (record (phdr32 o s)).length = 32 := by
  rw [length_record]; rfl

theorem length_phdr64 (o : Nat) (s : Segment) : (record (phdr64 o s)).length = 56 := by
  rw [length_record]; rfl

theorem length_ehdr32 (entry n : Nat) : (record (ehdr32 entry n)).length = 36 := by
  rw [length_record]; rfl

theorem length_ehdr64 (entry n : Nat) : (record (ehdr64 entry n)).length = 48 := by
  rw [length_record]; rfl

def elf32 : Image where
  bytes := encode 1 (ehdr32 p.entry p.segments.length) phdr32 (52 + 32 * p.segments.length) p.segments
  size_lt := by
    have := p.contentOffset_lt
    rw [length_encode _ _ _ _ length_phdr32, length_ehdr32]
    omega

def elf64 : Image where
  bytes := encode 2 (ehdr64 p.entry p.segments.length) phdr64 (64 + 56 * p.segments.length) p.segments
  size_lt := by
    have := p.contentOffset_lt
    have := p.count_lt
    rw [length_encode _ _ _ _ length_phdr64, length_ehdr64]
    omega

/-- The segments that have bytes, each at the address `addr` says. -/
def blocks (addr : Segment → Nat) : List (Block UInt8) :=
  p.segments.filterMap fun s => if s.bytes = [] then none else some (addr s, s.bytes)

/-! ### What the loader decodes -/

theorem action_of_fields {b : Image} {i ph addr offset filesz : Nat} (hi : i < ePhnum b b.is64)
    (hfits : PhFits b i) (hex : phExact b i = ph) (hin : ph + pExtent b.is64 ≤ b.bytes.length)
    (ht : pType b ph = 1) (ha : pLoadAddr b b.is64 ph = addr) (ho : pOffset b b.is64 ph = offset)
    (hz : pFilesz b b.is64 ph = filesz) (hle : offset + filesz ≤ b.bytes.length) :
    action b i = if filesz = 0 then .skip else .load addr offset filesz := by
  have hpa := ((phAt_eq_iff b hi).2 hfits).trans hex
  have hext : 4 ≤ pExtent b.is64 := by cases b.is64 <;> decide
  have hsz := b.size_lt
  rw [action, hpa]
  split
  · unfold phdrAction
    rw [if_neg (by omega), if_neg (not_not.2 ht), if_neg (not_not.2 hin), if_pos (by omega)]
  · refine phdrAction_load_iff.2 ⟨⟨hin, ht, by omega, ?_⟩, ha.symm, ho.symm, hz.symm⟩
    rw [Nat.mod_eq_of_lt (by omega)]
    exact hle

/-- The loader reads `b` as the program, with the address `addr` of each segment. -/
structure Decodes (b : Image) (addr : Segment → Nat) : Prop where
  isElf : IsElf b
  entry : eEntry b b.is64 = p.entry
  phnum : ePhnum b b.is64 = p.segments.length
  action : ∀ i s, p.segments[i]? = some s → ∃ off, off + s.bytes.length ≤ b.bytes.length ∧
    (b.bytes.drop off).take s.bytes.length = s.bytes ∧
    action b i = if s.bytes.length = 0 then .skip else .load (addr s) off s.bytes.length

/-- A file laid out as `encode` says is read as the program, if the loader finds the header fields in it and
the segment's fields in each table entry. -/
theorem decodes_of_layout {b : Image} {cls : UInt8} {ehdr : List (Nat × Nat)}
    {phdr : Nat → Segment → List (Nat × Nat)} {h w : Nat} {addr : Segment → Nat}
    (hb : b.bytes = encode cls ehdr phdr (h + w * p.segments.length) p.segments)
    (hh : 16 + (record ehdr).length = h) (hw : ∀ o t, (record (phdr o t)).length = w)
    (hsmall : 64 ≤ h + w ∧ h ≤ 64 ∧ w ≤ 56 ∧ pExtent b.is64 ≤ w)
    (hident : b.bytes.take 4 = [0x7F, 0x45, 0x4C, 0x46] ∧ b.bytes.getD 5 0 = 1)
    (hentry : eEntry b b.is64 = p.entry) (hphoff : ePhoff b b.is64 = h) (hphentsize : ePhentsize b b.is64 = w)
    (hphnum : ePhnum b b.is64 = p.segments.length)
    (hfields : ∀ i s, p.segments[i]? = some s → pType b (h + i * w) = 1 ∧
      pLoadAddr b b.is64 (h + i * w) = addr s ∧
      pOffset b b.is64 (h + i * w) = h + w * p.segments.length + contentOffset p.segments i ∧
      pFilesz b b.is64 (h + i * w) = s.bytes.length) : p.Decodes b addr := by
  obtain ⟨h64, hh64, hw56, hext⟩ := hsmall
  have hn := p.count_lt
  have hlen := length_encode cls ehdr (h + w * p.segments.length) p.segments hw
  rw [← hb, hh, Nat.mul_comm] at hlen
  refine ⟨⟨?_, hident.1, hident.2⟩, hentry, hphnum, fun i s hs => ?_⟩
  · have := Nat.le_mul_of_pos_right w (List.length_pos_of_ne_nil p.nonempty)
    omega
  obtain ⟨hi, -⟩ := List.getElem?_eq_some_iff.1 hs
  obtain ⟨hle, htake⟩ := encode_contents cls ehdr (h + w * p.segments.length) p.segments hw
    (by rw [hh, Nat.mul_comm]) hs
  rw [← hb] at hle htake
  obtain ⟨ht, ha, ho, hz⟩ := hfields i s hs
  have hex : phExact b i = h + i * w := by rw [phExact, hphoff, hphentsize]
  have hiw : i * w ≤ i * 56 := Nat.mul_le_mul_left i hw56
  have hnext : i * w + w ≤ w * p.segments.length := by
    rw [← Nat.succ_mul, Nat.mul_comm w]
    exact Nat.mul_le_mul_right w hi
  refine ⟨_, hle, htake, action_of_fields (hphnum ▸ hi) ?_ hex (by omega) ht ha ho hz hle⟩
  rw [PhFits, hex, hphentsize]
  omega

theorem decodes_elf32 : p.Decodes p.elf32 Segment.paddr := by
  have hident : p.elf32.bytes.take 4 = [0x7F, 0x45, 0x4C, 0x46] ∧ p.elf32.bytes.getD 5 0 = 1 := ⟨rfl, rfl⟩
  refine p.decodes_of_layout (h := 52) (w := 32) rfl (by rw [length_ehdr32]) length_phdr32
    (show 64 ≤ 52 + 32 ∧ 52 ≤ 64 ∧ 32 ≤ 56 ∧ pExtent false ≤ 32 by decide) hident
    (field_ehdr _ _ _ _ (j := 3) rfl p.entry_lt rfl) (field_ehdr _ _ _ _ (j := 4) rfl (by decide) rfl)
    (field_ehdr _ _ _ _ (j := 8) rfl (by decide) rfl) (field_ehdr _ _ _ _ (j := 9) rfl p.count_lt rfl)
    fun i s hs => ?_
  obtain ⟨hi, -⟩ := List.getElem?_eq_some_iff.1 hs
  have hoff := p.offset_lt i hi
  have hfield {j k n o : Nat} (h : (phdr32 (52 + 32 * p.segments.length + contentOffset p.segments i) s)[j]? =
      some (k, n)) (hk : n < 256 ^ k)
      (ho : offset (phdr32 (52 + 32 * p.segments.length + contentOffset p.segments i) s) j = o) :
      field p.elf32.bytes (52 + i * 32 + o) k = n := by
    have := field_phdr 1 (ehdr32 p.entry p.segments.length) _ _ length_phdr32 hs h hk ho
    rwa [length_ehdr32] at this
  exact ⟨hfield (j := 0) rfl (by decide) rfl, hfield (j := 3) rfl s.paddr_lt rfl, hfield (j := 1) rfl hoff rfl,
    hfield (j := 4) rfl s.size_lt rfl⟩

/-- The field the loader takes for `p_paddr` in an ELFCLASS64 file is `p_vaddr`. -/
theorem decodes_elf64 : p.Decodes p.elf64 Segment.vaddr := by
  have hident : p.elf64.bytes.take 4 = [0x7F, 0x45, 0x4C, 0x46] ∧ p.elf64.bytes.getD 5 0 = 1 := ⟨rfl, rfl⟩
  have hn := p.count_lt
  refine p.decodes_of_layout (h := 64) (w := 56) rfl (by rw [length_ehdr64]) length_phdr64
    (show 64 ≤ 64 + 56 ∧ 64 ≤ 64 ∧ 56 ≤ 56 ∧ pExtent true ≤ 56 by decide) hident
    (field_ehdr _ _ _ _ (j := 3) rfl (p.entry_lt.trans (by decide)) rfl)
    (field_ehdr _ _ _ _ (j := 4) rfl (by decide) rfl) (field_ehdr _ _ _ _ (j := 8) rfl (by decide) rfl)
    (field_ehdr _ _ _ _ (j := 9) rfl hn rfl) fun i s hs => ?_
  obtain ⟨hi, -⟩ := List.getElem?_eq_some_iff.1 hs
  have hoff := p.offset_lt i hi
  have hfield {j k n o : Nat} (h : (phdr64 (64 + 56 * p.segments.length + contentOffset p.segments i) s)[j]? =
      some (k, n)) (hk : n < 256 ^ k)
      (ho : offset (phdr64 (64 + 56 * p.segments.length + contentOffset p.segments i) s) j = o) :
      field p.elf64.bytes (64 + i * 56 + o) k = n := by
    have := field_phdr 2 (ehdr64 p.entry p.segments.length) _ _ length_phdr64 hs h hk ho
    rwa [length_ehdr64] at this
  exact ⟨hfield (j := 0) rfl (by decide) rfl, hfield (j := 3) rfl (s.vaddr_lt.trans (by decide)) rfl,
    hfield (j := 2) rfl (by omega) rfl, hfield (j := 5) rfl (s.size_lt.trans (by decide)) rfl⟩

namespace Decodes
variable {p} {b : Image} {addr : Segment → Nat}

theorem loadable (h : p.Decodes b addr) : Loadable b := by
  intro i hi
  rw [h.phnum] at hi
  obtain ⟨off, hle, -, ha⟩ := h.action i _ (List.getElem?_eq_getElem hi)
  rw [ha]
  split
  · exact .inl rfl
  · exact .inr ⟨_, _, _, rfl, hle, p.segments[i].size_lt⟩

theorem placed_eq (h : p.Decodes b addr) : placed b (ePhnum b b.is64) = p.blocks addr := by
  have key (n : Nat) (hn : n ≤ p.segments.length) : placed b n =
      (p.segments.take n).filterMap fun s => if s.bytes = [] then none else some (addr s, s.bytes) := by
    induction n with
    | zero => rfl
    | succ n ih =>
      have hs := List.getElem?_eq_getElem (l := p.segments) (i := n) (by omega)
      obtain ⟨off, -, htake, ha⟩ := h.action n _ hs
      rw [placed_succ, ih (by omega), List.take_add_one, List.filterMap_append, hs, ha]
      congr 1
      by_cases hb : p.segments[n].bytes = []
      · simp [hb, PhdrAction.block]
      · simp only [List.length_eq_zero_iff, hb, if_false, PhdrAction.block, htake, Option.toList_some,
          List.filterMap_cons, List.filterMap_nil]
  rw [h.phnum, key _ le_rfl, List.take_length, blocks]

end Decodes

end Program
end CdcVp
