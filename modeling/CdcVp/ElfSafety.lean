import CdcVp.ElfDecode

/-!
# When the loader rejects every malformed file

`load_elf` guards a segment by `p_offset + p_filesz > b.size()` and a header by `b.at`, both modulo
`2 ^ 64`, and hands `dbg_write` the low 32 bits of `p_filesz`. `Safe` is what the guards are for;
`NoWrap` is the exact condition on the file under which they achieve it.
-/

namespace CdcVp
open LittleEndian ExceptState

/-! ### The header addresses -/

theorem toNat_signExtend_int {q : Nat} (hq : q < 2 ^ 32) :
    ((Int32.ofNat q).toInt64.toUInt64).toNat = if q < 2 ^ 31 then q else q + (2 ^ 64 - 2 ^ 32) := by
  show ((BitVec.ofNat 32 q).signExtend 64).toNat = _
  rw [BitVec.toNat_signExtend, BitVec.msb_eq_decide]
  simp only [BitVec.toNat_setWidth, BitVec.toNat_ofNat, Nat.mod_eq_of_lt hq,
    Nat.mod_eq_of_lt (hq.trans (show 2 ^ 32 < 2 ^ 64 by decide)), decide_eq_true_eq]
  split <;> split <;> omega

/-- `e_phoff + i * e_phentsize`, in exact integers. -/
def phExact (b : Image) (i : Nat) : Nat := ePhoff b b.is64 + i * ePhentsize b b.is64

/-- The product fits an `int` and the sum fits 64 bits. -/
def PhFits (b : Image) (i : Nat) : Prop :=
  i * ePhentsize b b.is64 < 2 ^ 31 ∧ phExact b i < 2 ^ 64

/-- The loader looks for header `i` where it is iff neither operation overflows. -/
theorem phAt_eq_iff (b : Image) {i : Nat} (hi : i < ePhnum b b.is64) :
    (phAt b i).toNat = phExact b i ↔ PhFits b i := by
  have hpo := ePhoff_lt b b.is64
  have hpe := ePhentsize_lt b b.is64
  have hq : i * ePhentsize b b.is64 < 2 ^ 32 := by
    have := ePhnum_lt b b.is64
    calc i * ePhentsize b b.is64 ≤ 2 ^ 16 * ePhentsize b b.is64 := Nat.mul_le_mul_right _ (by omega)
      _ < 2 ^ 32 := by omega
  rw [phAt, phAddr, UInt16.toNat_ofNat', Nat.mod_eq_of_lt hpe, UInt64.toNat_add, UInt64.toNat_ofNat',
    Nat.mod_eq_of_lt hpo, toNat_signExtend_int hq, PhFits, phExact]
  split <;> omega

/-! ### Safety -/

/-- The bytes of an access lie in the file. -/
def Access.Inside (b : Image) : Access → Prop
  | .read off => off.toNat < b.bytes.length
  | .header _ _ => True
  | .handed off len => ∀ j < len.toNat, off.toNat + j < b.bytes.length

/-- What an accepted file owes, in exact integers: every header was read where it is, and every
non-empty `PT_LOAD` segment lies in the file and was handed over whole. -/
structure Complete (b : Image) (log : List Access) : Prop where
  headers : ∀ i < ePhnum b b.is64, ∃ ph, ph.toNat = phExact b i ∧ .header i ph ∈ log
  segments : ∀ i < ePhnum b b.is64, pType b (phExact b i) = 1 → 0 < pFilesz b b.is64 (phExact b i) →
    pOffset b b.is64 (phExact b i) + pFilesz b b.is64 (phExact b i) ≤ b.bytes.length ∧
    ∃ off len, off.toNat = pOffset b b.is64 (phExact b i) ∧ len.toNat = pFilesz b b.is64 (phExact b i) ∧
      .handed off len ∈ log

/-- A run that touched no byte outside the file, and returned only if the file is sound. -/
def Safe {σ : Type} (b : Image) (r : EStateM.Result ElfError (LoadState σ) UInt64) : Prop :=
  Ends r (fun _ s => (∀ a ∈ s.log, a.Inside b) ∧ Complete b s.log)
    (fun _ s => ∀ a ∈ s.log, a.Inside b)

namespace PhdrAction

/-- The loop throws at this header. -/
def Rejects (a : PhdrAction) : Prop := a = .unreadable ∨ a = .exceeds

/-- The end of the segment wraps past `2 ^ 64`, and the 32 bits left of its size run past the file. -/
def Overruns (b : Image) : PhdrAction → Prop
  | .load _ offset filesz => 2 ^ 64 ≤ offset + filesz ∧ 0 < filesz % 2 ^ 32 ∧
      b.bytes.length < offset + filesz % 2 ^ 32
  | _ => False

/-- The end of the segment fits 64 bits and its size 32. -/
def Exact : PhdrAction → Prop
  | .load _ offset filesz => offset + filesz < 2 ^ 64 ∧ filesz < 2 ^ 32
  | _ => True

end PhdrAction

/-- Every header before `i` lets the loop go on. -/
def Reached (b : Image) (i : Nat) : Prop := ∀ j < i, ¬ (action b j).Rejects

/-- No wrap-around escapes the guards: no header that is reached overruns, and if none is rejected then
no address, end or size is cut off. -/
structure NoWrap (b : Image) : Prop where
  inside : ∀ i < ePhnum b b.is64, Reached b i → ¬ (action b i).Overruns b
  exact : Reached b (ePhnum b b.is64) →
    ∀ i < ePhnum b b.is64, PhFits b i ∧ (action b i).Exact

/-! ### The log of a run -/

def handedOf (offset filesz : Nat) : Access := .handed (UInt64.ofNat offset) (UInt64.ofNat filesz).toUInt32

/-- The log after `n` turns: nothing but reads inside the file, headers where the loader looks for them
and segments of headers reached, and the first `n` headers with their segments are there. -/
structure Logged (b : Image) (n : Nat) (log : List Access) : Prop where
  sound : ∀ a ∈ log, (∃ off, a = .read off ∧ off.toNat < b.bytes.length) ∨
    (∃ j, a = .header j (phAt b j)) ∨
    ∃ j < ePhnum b b.is64, Reached b j ∧ ∃ addr offset filesz,
      action b j = .load addr offset filesz ∧ a = handedOf offset filesz
  headers : ∀ j < n, .header j (phAt b j) ∈ log
  segments : ∀ j < n, ∀ addr offset filesz, action b j = .load addr offset filesz →
    handedOf offset filesz ∈ log

section
variable {σ : Type} {b : Image} {sock : DbgSocket σ} {log l : List Access} {i n : Nat} {s : LoadState σ}

namespace Logged

theorem of_reads (h : Reads b l) : Logged b 0 l :=
  ⟨fun a ha => .inl (h a ha), fun _ h => absurd h (Nat.not_lt_zero _),
    fun _ h => absurd h (Nat.not_lt_zero _)⟩

theorem reads (h : Logged b n log) (hl : Reads b l) : Logged b n (log ++ l) :=
  ⟨fun a ha => (List.mem_append.1 ha).elim (h.sound a) fun ha => .inl (hl a ha),
    fun j hj => List.mem_append_left _ (h.headers j hj),
    fun j hj _ _ _ hl => List.mem_append_left _ (h.segments j hj _ _ _ hl)⟩

theorem header (h : Logged b n log) : Logged b n (log ++ [.header i (phAt b i)]) :=
  ⟨fun a ha => (List.mem_append.1 ha).elim (h.sound a) fun ha => .inr (.inl ⟨i, by simpa using ha⟩),
    fun j hj => List.mem_append_left _ (h.headers j hj),
    fun j hj _ _ _ hl => List.mem_append_left _ (h.segments j hj _ _ _ hl)⟩

theorem handed {addr offset filesz : Nat} (h : Logged b n log) (hi : i < ePhnum b b.is64)
    (hr : Reached b i) (ha : action b i = .load addr offset filesz) :
    Logged b n (log ++ [handedOf offset filesz]) :=
  ⟨fun a hm => (List.mem_append.1 hm).elim (h.sound a) fun hm =>
      .inr (.inr ⟨i, hi, hr, addr, offset, filesz, ha, by simpa using hm⟩),
    fun j hj => List.mem_append_left _ (h.headers j hj),
    fun j hj _ _ _ hl => List.mem_append_left _ (h.segments j hj _ _ _ hl)⟩

theorem succ (h : Logged b n log) (hh : .header n (phAt b n) ∈ log)
    (hs : ∀ addr offset filesz, action b n = .load addr offset filesz → handedOf offset filesz ∈ log) :
    Logged b (n + 1) log := by
  refine ⟨h.sound, fun j hj => ?_, fun j hj => ?_⟩
  · rcases Nat.lt_succ_iff_lt_or_eq.1 hj with hj | rfl
    · exact h.headers j hj
    · exact hh
  · rcases Nat.lt_succ_iff_lt_or_eq.1 hj with hj | rfl
    · exact h.segments j hj
    · exact hs

end Logged

theorem Reached.succ (h : Reached b i) (ha : ¬ (action b i).Rejects) : Reached b (i + 1) := by
  intro j hj
  rcases Nat.lt_succ_iff_lt_or_eq.1 hj with hj | rfl
  · exact h j hj
  · exact ha

/-- The target counts some debug write short. -/
def Refuses (sock : DbgSocket σ) : Prop := ∃ s trans, (sock s trans).2.2 ≠ trans.dataLength

theorem dbgWriteOf_ends (sock : DbgSocket σ) (b : Image) (addr offset filesz : Nat) (s : LoadState σ) :
    Ends (dbgWriteOf sock b addr offset filesz s)
      (fun _ (s' : LoadState σ) => s'.log = s.log ++ [handedOf offset filesz])
      (fun _ (s' : LoadState σ) => s'.log = s.log ++ [handedOf offset filesz] ∧ Refuses sock) := by
  rw [dbgWriteOf, dbgWrite_run]
  dsimp only
  split
  · exact rfl
  · exact ⟨rfl, s.target, _, ‹_›⟩

/-- The loop keeps `Logged`, and stops early only at a header it rejects or a refused write. -/
theorem loop_logged (sock : DbgSocket σ) (b : Image) (h0 : Logged b 0 s.log) :
    Ends ((List.range (ePhnum b b.is64)).forM (turn sock b) s)
      (fun _ (s' : LoadState σ) => Logged b (ePhnum b b.is64) s'.log ∧ Reached b (ePhnum b b.is64))
      (fun _ (s' : LoadState σ) => ∃ i < ePhnum b b.is64, Logged b i s'.log ∧
        ((action b i).Rejects ∨ Refuses sock)) := by
  refine forM_range (fun i (s' : LoadState σ) => Logged b i s'.log ∧ Reached b i) _ ?_
    ⟨h0, fun _ h => absurd h (Nat.not_lt_zero _)⟩
  rintro i hi s ⟨hlog, hr⟩
  obtain ⟨l, l', hl, hl', hspec⟩ := turn_spec sock b i s
  have hseen := ((hlog.reads hl).header (i := i)).reads hl'
  have hmem : Access.header i (phAt b i) ∈ s.log ++ l ++ [Access.header i (phAt b i)] ++ l' := by simp
  have hassoc : s.log ++ (l ++ [Access.header i (phAt b i)] ++ l') =
      s.log ++ l ++ [Access.header i (phAt b i)] ++ l' := by simp
  cases ha : action b i with
  | unreadable =>
    rw [ha] at hspec
    obtain ⟨l'', hl'', he⟩ := hspec
    rw [he]
    refine ⟨i, hi, ?_, .inl (.inl ha)⟩
    rcases hl'' with rfl | rfl
    · exact hlog.reads hl
    · rw [LoadState.logged_log, hassoc]; exact hseen
  | skip =>
    rw [ha] at hspec
    rw [hspec]
    refine ⟨?_, hr.succ (by simp [ha, PhdrAction.Rejects])⟩
    rw [LoadState.logged_log, hassoc]
    exact hseen.succ hmem (by simp [ha])
  | exceeds =>
    rw [ha] at hspec
    rw [hspec]
    refine ⟨i, hi, ?_, .inl (.inr ha)⟩
    rw [LoadState.logged_log, hassoc]
    exact hseen
  | load addr offset filesz =>
    rw [ha] at hspec
    rw [hspec]
    have hh := hseen.handed hi hr ha
    refine (dbgWriteOf_ends sock b addr offset filesz _).mono (fun _ s' hs' => ?_) fun _ s' hs' => ?_
    · rw [LoadState.logged_log, hassoc] at hs'
      rw [hs']
      refine ⟨hh.succ (by simp) fun addr' offset' filesz' hl => ?_, hr.succ (by simp [ha, PhdrAction.Rejects])⟩
      rw [ha] at hl
      cases hl
      simp
    · rw [LoadState.logged_log, hassoc] at hs'
      rw [hs'.1]
      exact ⟨i, hi, hh, .inr hs'.2⟩

theorem loadElf_logged (sock : DbgSocket σ) (path : String) (h : IsElf b) (hs : s.log = []) :
    Ends (loadElf sock path (some b) s)
      (fun _ (s' : LoadState σ) => Logged b (ePhnum b b.is64) s'.log ∧ Reached b (ePhnum b b.is64))
      (fun _ (s' : LoadState σ) => ∃ i < ePhnum b b.is64, Logged b i s'.log ∧
        ((action b i).Rejects ∨ Refuses sock)) := by
  obtain ⟨l, hl, he⟩ := loadElf_spec sock path s h
  rw [he]
  refine .bind ((loop_logged sock b ?_).mono (fun _ _ h => h) fun _ _ h => h)
  rw [LoadState.logged_log, hs]
  exact .of_reads hl

/-! ### The exact condition -/

theorem phdrAction_load_iff {is64 : Bool} {ph addr offset filesz : Nat} :
    phdrAction b is64 ph = .load addr offset filesz ↔
      (ph + pExtent is64 ≤ b.bytes.length ∧ pType b ph = 1 ∧ 0 < filesz ∧
        (offset + filesz) % 2 ^ 64 ≤ b.bytes.length) ∧
      addr = pLoadAddr b is64 ph ∧ offset = pOffset b is64 ph ∧ filesz = pFilesz b is64 ph := by
  have hext : 4 ≤ pExtent is64 := by cases is64 <;> decide
  constructor
  · unfold phdrAction
    intro h
    split at h; · cases h
    split at h; · cases h
    split at h; · cases h
    split at h; · cases h
    split at h; · cases h
    cases h
    exact ⟨⟨by omega, by omega, by omega, by omega⟩, rfl, rfl, rfl⟩
  · rintro ⟨⟨h1, h2, h3, h4⟩, rfl, rfl, rfl⟩
    unfold phdrAction
    rw [if_neg (by omega), if_neg (by omega), if_neg (by omega), if_neg (by omega), if_neg (by omega)]

theorem phdrAction_load_of_accepted {is64 : Bool} {ph : Nat} (h : ¬ (phdrAction b is64 ph).Rejects)
    (h1 : pType b ph = 1) (h2 : 0 < pFilesz b is64 ph) :
    phdrAction b is64 ph = .load (pLoadAddr b is64 ph) (pOffset b is64 ph) (pFilesz b is64 ph) := by
  have h4 : ph + 4 ≤ b.bytes.length := by
    by_contra hn; exact h (.inl (by rw [phdrAction, if_pos hn]))
  have hext : ph + pExtent is64 ≤ b.bytes.length := by
    by_contra hn
    exact h (.inl (by rw [phdrAction, if_neg (not_not.2 h4), if_neg (not_not.2 h1), if_pos hn]))
  have hsum : ¬ (pOffset b is64 ph + pFilesz b is64 ph) % 2 ^ 64 > b.bytes.length := fun hn =>
    h (.inr (by rw [phdrAction, if_neg (not_not.2 h4), if_neg (not_not.2 h1), if_neg (not_not.2 hext),
      if_neg (by omega), if_pos hn]))
  exact phdrAction_load_iff.2 ⟨⟨hext, h1, h2, Nat.not_lt.1 hsum⟩, rfl, rfl, rfl⟩

theorem toNat_handedOf {offset filesz : Nat} (ho : offset < 2 ^ 64) (hz : filesz < 2 ^ 64) :
    (UInt64.ofNat offset).toNat = offset ∧ (UInt64.ofNat filesz).toUInt32.toNat = filesz % 2 ^ 32 := by
  rw [UInt64.toNat_toUInt32, UInt64.toNat_ofNat', UInt64.toNat_ofNat', Nat.mod_eq_of_lt ho,
    Nat.mod_eq_of_lt hz]
  exact ⟨rfl, rfl⟩

/-- A loaded segment is handed over inside the file iff it does not overrun. -/
theorem handedOf_inside_iff {addr offset filesz : Nat} (h : action b i = .load addr offset filesz) :
    (handedOf offset filesz).Inside b ↔ ¬ (action b i).Overruns b := by
  obtain ⟨⟨-, -, hz, hsum⟩, -, ho, hf⟩ := phdrAction_load_iff.1 h
  have ho' : offset < 2 ^ 64 := ho ▸ pOffset_lt ..
  have hf' : filesz < 2 ^ 64 := hf ▸ pFilesz_lt ..
  have hmod := Nat.mod_le filesz (2 ^ 32)
  rw [h]
  simp only [handedOf, Access.Inside, toNat_handedOf ho' hf', PhdrAction.Overruns]
  constructor
  · rintro hin ⟨-, hpos, hlt⟩
    have := hin (filesz % 2 ^ 32 - 1) (by omega)
    omega
  · intro hno j hj
    by_cases hw : 2 ^ 64 ≤ offset + filesz
    · exact Nat.lt_of_not_le fun hle => hno ⟨hw, by omega, by omega⟩
    · rw [Nat.mod_eq_of_lt (by omega)] at hsum
      omega

def acceptAll : DbgSocket Unit := fun s trans => (s, trans, trans.dataLength)

theorem not_refuses_acceptAll : ¬ Refuses acceptAll := fun ⟨_, _, h⟩ => h rfl

theorem Logged.inside (h : Logged b n log) (hw : NoWrap b) : ∀ a ∈ log, a.Inside b := by
  intro a ha
  rcases h.sound a ha with ⟨off, rfl, hoff⟩ | ⟨j, rfl⟩ | ⟨j, hj, hr, addr, offset, filesz, hact, rfl⟩
  · exact hoff
  · trivial
  · exact (handedOf_inside_iff hact).2 (hw.inside j hj hr)

theorem Logged.complete (h : Logged b (ePhnum b b.is64) log) (hr : Reached b (ePhnum b b.is64))
    (hw : NoWrap b) : Complete b log := by
  have hex := hw.exact hr
  refine ⟨fun i hi => ⟨phAt b i, (phAt_eq_iff b hi).2 (hex i hi).1, h.headers i hi⟩, ?_⟩
  intro i hi h1 h2
  have hph := (phAt_eq_iff b hi).2 (hex i hi).1
  rw [← hph] at h1 h2 ⊢
  have hact := phdrAction_load_of_accepted (hr i hi) h1 h2
  have hex' : (action b i).Exact := (hex i hi).2
  obtain ⟨⟨-, -, -, hsum⟩, -⟩ := phdrAction_load_iff.1 hact
  rw [action, hact] at hex'
  obtain ⟨hlt, hz⟩ := hex'
  obtain ⟨e1, e2⟩ := toNat_handedOf (pOffset_lt b b.is64 (phAt b i).toNat) (pFilesz_lt b b.is64 (phAt b i).toNat)
  rw [Nat.mod_eq_of_lt hlt] at hsum
  rw [Nat.mod_eq_of_lt hz] at e2
  exact ⟨hsum, _, _, e1, e2, h.segments i hi _ _ _ hact⟩

/-- The header of turn `i` is logged where the loader looks for it, and nowhere else. -/
theorem Logged.header_eq (h : Logged b n log) {ph : UInt64} (hm : .header i ph ∈ log) : ph = phAt b i := by
  rcases h.sound _ hm with ⟨off, he, -⟩ | ⟨j, he⟩ | ⟨j, -, -, addr, offset, filesz, -, he⟩
  · cases he
  · cases he; rfl
  · cases he

theorem Logged.noWrap_exact (h : Logged b n log) (hc : Complete b log) (hi : i < ePhnum b b.is64) :
    PhFits b i ∧ (action b i).Exact := by
  obtain ⟨ph, hph, hm⟩ := hc.headers i hi
  rw [h.header_eq hm] at hph
  refine ⟨(phAt_eq_iff b hi).1 hph, ?_⟩
  cases ha : action b i with
  | load addr offset filesz =>
    obtain ⟨⟨-, h1, hz, -⟩, -, ho, hf⟩ := phdrAction_load_iff.1 ha
    rw [hph] at h1 ho hf
    obtain ⟨hle, off, len, -, hlen, -⟩ := hc.segments i hi h1 (by omega)
    have := len.toNat_lt
    have := b.size_lt
    exact ⟨by omega, by omega⟩
  | _ => trivial

end

/-- `load_elf` is safe on a file, for every memory target, iff the file fails the first checks or no
wrap-around escapes the guards. -/
theorem loadElf_safe_iff (b : Image) :
    (∀ (σ : Type) (sock : DbgSocket σ) (path : String) (s : LoadState σ), s.log = [] →
      Safe b (loadElf sock path (some b) s)) ↔ (IsElf b → NoWrap b) := by
  constructor
  · intro hsafe helf
    have hrun := loadElf_logged (s := ⟨(), []⟩) acceptAll "" helf rfl
    have hs := hsafe Unit acceptAll "" ⟨(), []⟩ rfl
    cases hres : loadElf acceptAll "" (some b) ⟨(), []⟩ with
    | ok x s' =>
      rw [hres] at hrun hs
      refine ⟨fun i hi hr hov => ?_, fun _ i hi => hrun.1.noWrap_exact hs.2 hi⟩
      cases ha : action b i with
      | load addr offset filesz =>
        exact (handedOf_inside_iff ha).1 (hs.1 _ (hrun.1.segments i hi _ _ _ ha)) hov
      | _ => rw [ha] at hov; exact hov
    | error e s' =>
      rw [hres] at hrun hs
      obtain ⟨k, hk, hlog, hrej | href⟩ := hrun
      swap
      · exact absurd href not_refuses_acceptAll
      refine ⟨fun i hi hr hov => ?_, fun hr => absurd hrej (hr k hk)⟩
      cases ha : action b i with
      | load addr offset filesz =>
        have hne : i ≠ k := by
          rintro rfl; rw [ha] at hrej; rcases hrej with h | h <;> cases h
        have hik : i < k := by
          rcases Nat.lt_trichotomy i k with h | h | h
          · exact h
          · exact absurd h hne
          · exact absurd hrej (hr k h)
        exact (handedOf_inside_iff ha).1 (hs _ (hlog.segments i hik _ _ _ ha)) hov
      | _ => rw [ha] at hov; exact hov
  · intro hw σ sock path s hs
    by_cases helf : IsElf b
    · refine (loadElf_logged sock path helf hs).mono (fun _ s' ⟨hlog, hr⟩ => ?_) fun _ s' ⟨k, _, hlog, _⟩ => ?_
      · exact ⟨hlog.inside (hw helf), hlog.complete hr (hw helf)⟩
      · exact hlog.inside (hw helf)
    · obtain ⟨l, e, hl, he⟩ := loadElf_rejects sock path s helf
      rw [he]
      show ∀ a ∈ s.log ++ l, a.Inside b
      rw [hs]
      intro a ha
      obtain ⟨off, rfl, hoff⟩ := hl a ha
      exact hoff

/-- An ELF64 file of 120 bytes whose one segment starts at `2 ^ 64 - 16` and has 32 bytes. -/
def wrapped : Image where
  bytes := [0x7F, 0x45, 0x4C, 0x46, 2, 1, 1] ++ List.replicate 25 0 ++ bytes 8 64 ++ List.replicate 14 0 ++
    bytes 2 56 ++ bytes 2 1 ++ List.replicate 6 0 ++
    bytes 4 1 ++ bytes 4 0 ++ bytes 8 (2 ^ 64 - 16) ++ bytes 8 0 ++ bytes 8 0 ++ bytes 8 32 ++ bytes 8 32 ++
    bytes 8 0
  size_lt := by decide

def logOf {σ : Type} : EStateM.Result ElfError (LoadState σ) UInt64 → List Access
  | .ok _ s | .error _ s => s.log

theorem Safe.inside {σ : Type} {b : Image} {r : EStateM.Result ElfError (LoadState σ) UInt64}
    (h : Safe b r) : ∀ a ∈ logOf r, a.Inside b := by
  cases r with
  | ok x s => exact h.1
  | error e s => exact h

theorem wrapped_handed : .handed (UInt64.ofNat (2 ^ 64 - 16)) 32 ∈
    logOf (loadElf acceptAll "" (some wrapped) ⟨(), []⟩) := by decide +kernel

/-- Its end wraps to 16, so the guard lets it through and bytes before the file are handed over. -/
theorem not_safe_wrapped : ¬ ∀ (b : Image) (σ : Type) (sock : DbgSocket σ) (path : String)
    (s : LoadState σ), s.log = [] → Safe b (loadElf sock path (some b) s) := by
  intro h
  obtain ⟨b, hb⟩ : ∃ b, b = wrapped := ⟨_, rfl⟩
  have hm := wrapped_handed
  have hlen : wrapped.bytes.length = 120 := by decide +kernel
  rw [← hb] at hm hlen
  have hlt := (h b Unit acceptAll "" ⟨(), []⟩ rfl).inside _ hm 0 (by decide)
  rw [hlen, UInt64.toNat_ofNat'] at hlt
  omega

end CdcVp
