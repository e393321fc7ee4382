import CdcVp.ElfLoader
import CdcVp.ExceptState

/-!
# What the loader decodes

`Fetches` is the one contract of `rd16`, `rd32` and `rd64`: the little-endian field if it lies in the
file, `std::out_of_range` if not, and no byte read outside the file either way. `phdrAction` is what a
program header tells the loop to do, as a function of the file; `loadPhdr_spec` says the loop body
does it.
-/

namespace CdcVp
open LittleEndian ExceptState

section
variable {σ α β : Type} {s s' : LoadState σ}

@[simp] theorem LoadState.logged_nil (s : LoadState σ) : s.logged [] = s := by
  simp [LoadState.logged]

@[simp] theorem LoadState.logged_logged (s : LoadState σ) (l l' : List Access) :
    (s.logged l).logged l' = s.logged (l ++ l') := by
  simp [LoadState.logged, List.append_assoc]

@[simp] theorem LoadState.logged_target (s : LoadState σ) (l : List Access) :
    (s.logged l).target = s.target := rfl

@[simp] theorem LoadState.logged_log (s : LoadState σ) (l : List Access) :
    (s.logged l).log = s.log ++ l := rfl

theorem note_run (a : Access) (s : LoadState σ) : note a s = .ok () (s.logged [a]) := rfl

theorem Image.size_toNat (b : Image) : b.size.toNat = b.bytes.length := by
  have := b.size_lt
  simp only [Image.size, UInt64.toNat_ofNat']
  omega

/-! ### Reading integers -/

/-- Every entry of `l` is the read of a byte of the file. -/
def Reads (b : Image) (l : List Access) : Prop :=
  ∀ a ∈ l, ∃ off : UInt64, a = .read off ∧ off.toNat < b.bytes.length

namespace Reads
variable {b : Image} {l l' : List Access}

theorem nil : Reads b [] := fun _ h => absurd h List.not_mem_nil

theorem append (h : Reads b l) (h' : Reads b l') : Reads b (l ++ l') := fun _ ha =>
  (List.mem_append.1 ha).elim (h _) (h' _)

theorem single {off : UInt64} (h : off.toNat < b.bytes.length) : Reads b [.read off] := fun _ ha =>
  ⟨off, List.mem_singleton.1 ha, h⟩

/-- A byte of the file header. -/
theorem low (h : 64 ≤ b.bytes.length) {off : UInt64} (hoff : off.toNat < 64) : Reads b [.read off] :=
  single (by omega)

end Reads

/-- `m` reads the `n`-byte field at `off`, or throws because it is not in the file. -/
structure Fetches (b : Image) (off n : Nat) (m : LoadM σ α) (toNat : α → Nat) : Prop where
  inside : off + n ≤ b.bytes.length → ∀ s, ∃ x l,
    toNat x = field b.bytes off n ∧ Reads b l ∧ m s = .ok x (s.logged l)
  outside : ¬ off + n ≤ b.bytes.length → ∀ s, ∃ l,
    Reads b l ∧ m s = .error .outOfRange (s.logged l)

variable {b : Image} {off : UInt64}

theorem checkedAt_inside (h : off.toNat < b.bytes.length) (s : LoadState σ) :
    b.checkedAt off s = .ok b.bytes[off.toNat] (s.logged [.read off]) := by
  simp only [Image.checkedAt, List.getElem?_eq_getElem h]; rfl

theorem checkedAt_outside (h : ¬ off.toNat < b.bytes.length) (s : LoadState σ) :
    b.checkedAt off s = .error .outOfRange s := by
  simp only [Image.checkedAt, List.getElem?_eq_none (Nat.not_lt.1 h)]; rfl

theorem toNat_add_small {k : UInt64} (h : off.toNat ≤ b.bytes.length) (hk : k.toNat ≤ 2 ^ 62) :
    (off + k).toNat = off.toNat + k.toNat := by
  have := b.size_lt
  rw [UInt64.toNat_add]
  omega

/-- `m` throws because it reads behind the end of the file, and reads no byte there. -/
def Throws (b : Image) (m : LoadM σ α) : Prop :=
  ∀ s, ∃ l, Reads b l ∧ m s = .error .outOfRange (s.logged l)

section
variable {m : LoadM σ α} {g : α → LoadM σ β} {toNat : α → Nat} {o n : Nat}

theorem Throws.bind (h : Throws b m) : Throws b (m >>= g) := by
  intro s
  obtain ⟨l, hl, e⟩ := h s
  exact ⟨l, hl, bind_error e⟩

/-- A fetch throws, or what follows it does. -/
theorem Fetches.throws (f : Fetches b o n m toNat) (h : o + n ≤ b.bytes.length → ∀ x, Throws b (g x)) :
    Throws b (m >>= g) := by
  by_cases hin : o + n ≤ b.bytes.length
  swap
  · exact Throws.bind (f.outside hin)
  intro s
  obtain ⟨x, l, -, hl, e⟩ := f.inside hin s
  obtain ⟨l', hl', e'⟩ := h hin x (s.logged l)
  exact ⟨l ++ l', hl.append hl', by rw [bind_ok e, e', LoadState.logged_logged]⟩

end

theorem checkedAt_fetches (b : Image) (off : UInt64) :
    Fetches (σ := σ) b off.toNat 1 (b.checkedAt off) UInt8.toNat where
  inside h s := by
    have hlt : off.toNat < b.bytes.length := by omega
    refine ⟨b.bytes[off.toNat], [.read off], ?_, .single hlt, checkedAt_inside hlt s⟩
    rw [field, List.drop_eq_getElem_cons hlt, List.take_succ_cons, List.take_zero]
    rfl
  outside h s := ⟨[], .nil, by rw [checkedAt_outside (by omega), LoadState.logged_nil]⟩

theorem rd16_fetches (b : Image) (off : UInt64) :
    Fetches (σ := σ) b off.toNat 2 (rd16 b off) UInt16.toNat := by
  have h1 (h : off.toNat < b.bytes.length) : (off + 1).toNat = off.toNat + 1 :=
    toNat_add_small (b := b) (by omega) (by decide)
  constructor
  · intro h s
    have h0' : off.toNat < b.bytes.length := by omega
    have h1' : (off + 1).toNat < b.bytes.length := by rw [h1 h0']; omega
    refine ⟨b.bytes[off.toNat].toUInt16 ||| b.bytes[(off + 1).toNat].toUInt16 <<< 8,
      [Access.read off] ++ [Access.read (off + 1)], ?_, (Reads.single h0').append (.single h1'), ?_⟩
    · rw [toNat_join16, field_two h]
      simp only [h1 h0']
    · rw [rd16, bind_ok (checkedAt_inside h0' s), bind_ok (checkedAt_inside h1' _),
        LoadState.logged_logged]
      rfl
  · intro h
    unfold rd16
    refine (checkedAt_fetches b off).throws fun h0 _ => ?_
    have := h1 (by omega)
    exact Throws.bind ((checkedAt_fetches b (off + 1)).outside (by omega))

theorem rd32_fetches (b : Image) (off : UInt64) :
    Fetches (σ := σ) b off.toNat 4 (rd32 b off) UInt32.toNat := by
  have hk (k : UInt64) (hk : k.toNat ≤ 4) (h : off.toNat < b.bytes.length) :
      (off + k).toNat = off.toNat + k.toNat := toNat_add_small (b := b) (by omega) (by omega)
  have h1 := hk 1 (by decide)
  have h2 := hk 2 (by decide)
  have h3 := hk 3 (by decide)
  simp only [UInt64.reduceToNat] at h1 h2 h3
  constructor
  · intro h s
    have h0' : off.toNat < b.bytes.length := by omega
    have h1' : (off + 1).toNat < b.bytes.length := by rw [h1 h0']; omega
    have h2' : (off + 2).toNat < b.bytes.length := by rw [h2 h0']; omega
    have h3' : (off + 3).toNat < b.bytes.length := by rw [h3 h0']; omega
    refine ⟨b.bytes[off.toNat].toUInt32 ||| b.bytes[(off + 1).toNat].toUInt32 <<< 8 |||
        b.bytes[(off + 2).toNat].toUInt32 <<< 16 ||| b.bytes[(off + 3).toNat].toUInt32 <<< 24,
      [Access.read off] ++ [Access.read (off + 1)] ++ [Access.read (off + 2)] ++ [Access.read (off + 3)], ?_,
      (((Reads.single h0').append (.single h1')).append (.single h2')).append (.single h3'), ?_⟩
    · rw [toNat_join32, field_four h]
      simp only [h1 h0', h2 h0', h3 h0']
    · rw [rd32, bind_ok (checkedAt_inside h0' s), bind_ok (checkedAt_inside h1' _),
        bind_ok (checkedAt_inside h2' _), bind_ok (checkedAt_inside h3' _)]
      simp only [LoadState.logged_logged]
      rfl
  · intro h
    unfold rd32
    refine (checkedAt_fetches b off).throws fun h0 _ => ?_
    refine (checkedAt_fetches b (off + 1)).throws fun _ _ => ?_
    refine (checkedAt_fetches b (off + 2)).throws fun _ _ => ?_
    have := h3 (by omega)
    exact Throws.bind ((checkedAt_fetches b (off + 3)).outside (by omega))

theorem rd64_fetches (b : Image) (off : UInt64) :
    Fetches (σ := σ) b off.toNat 8 (rd64 b off) UInt64.toNat := by
  have lo := rd32_fetches (σ := σ) b off
  have hi := rd32_fetches (σ := σ) b (off + 4)
  have h4 (h : off.toNat + 4 ≤ b.bytes.length) : (off + 4).toNat = off.toNat + 4 :=
    toNat_add_small (b := b) (by omega) (by decide)
  constructor
  · intro h s
    obtain ⟨x, l, hx, hl, hm⟩ := lo.inside (by omega) s
    obtain ⟨y, l', hy, hl', hm'⟩ := hi.inside (by rw [h4 (by omega)]; omega) (s.logged l)
    refine ⟨x.toUInt64 ||| y.toUInt64 <<< 32, l ++ l', ?_, hl.append hl', ?_⟩
    · rw [toNat_join64, hx, hy, field_eight h, h4 (by omega)]
    · rw [rd64, bind_ok hm, bind_ok hm', LoadState.logged_logged]; rfl
  · intro h
    unfold rd64
    refine lo.throws fun h0 _ => ?_
    have := h4 h0
    exact Throws.bind (hi.outside (by omega))

/-! ### The two header tables -/

/-- `e_entry`, `e_phoff`, `e_phentsize` and `e_phnum`, where the loader reads them. -/
def eEntry (b : Image) (is64 : Bool) : Nat := if is64 then field b.bytes 24 8 else field b.bytes 24 4
def ePhoff (b : Image) (is64 : Bool) : Nat := if is64 then field b.bytes 32 8 else field b.bytes 28 4
def ePhentsize (b : Image) (is64 : Bool) : Nat := field b.bytes (if is64 then 54 else 42) 2
def ePhnum (b : Image) (is64 : Bool) : Nat := field b.bytes (if is64 then 56 else 44) 2

/-- `p_type`, `p_offset`, the field loaded as `p_paddr`, and `p_filesz` of the header at `ph`, where the
loader reads them. -/
def pType (b : Image) (ph : Nat) : Nat := field b.bytes ph 4
def pOffset (b : Image) (is64 : Bool) (ph : Nat) : Nat :=
  if is64 then field b.bytes (ph + 8) 8 else field b.bytes (ph + 4) 4
def pLoadAddr (b : Image) (is64 : Bool) (ph : Nat) : Nat :=
  if is64 then field b.bytes (ph + 16) 8 else field b.bytes (ph + 12) 4
def pFilesz (b : Image) (is64 : Bool) (ph : Nat) : Nat :=
  if is64 then field b.bytes (ph + 32) 8 else field b.bytes (ph + 16) 4

/-- How far into a program header the loader reads. -/
def pExtent (is64 : Bool) : Nat := if is64 then 40 else 20

theorem eq_ofNat_of_toNat {x : UInt64} {n : Nat} (h : x.toNat = n) : x = UInt64.ofNat n := by
  rw [← h, UInt64.ofNat_toNat]

theorem toUInt64_eq_ofNat {x : UInt32} {n : Nat} (h : x.toNat = n) : x.toUInt64 = UInt64.ofNat n :=
  eq_ofNat_of_toNat (by rw [UInt32.toNat_toUInt64, h])

theorem readEhdr_spec (is64 : Bool) (h : 64 ≤ b.bytes.length) (s : LoadState σ) :
    ∃ l, Reads b l ∧ readEhdr b is64 s = .ok (UInt64.ofNat (eEntry b is64),
      UInt64.ofNat (ePhoff b is64), UInt16.ofNat (ePhentsize b is64), UInt16.ofNat (ePhnum b is64))
      (s.logged l) := by
  have h16 {x : UInt16} {n : Nat} (h : x.toNat = n) : x = UInt16.ofNat n := by
    rw [← h, UInt16.ofNat_toNat]
  cases is64 with
  | true =>
    obtain ⟨x₁, l₁, hx₁, hl₁, e₁⟩ := (rd64_fetches b 24).inside (by simp; omega) s
    obtain ⟨x₂, l₂, hx₂, hl₂, e₂⟩ := (rd64_fetches b 32).inside (by simp; omega) (s.logged l₁)
    obtain ⟨x₃, l₃, hx₃, hl₃, e₃⟩ := (rd16_fetches b 54).inside (by simp; omega) ((s.logged l₁).logged l₂)
    obtain ⟨x₄, l₄, hx₄, hl₄, e₄⟩ :=
      (rd16_fetches b 56).inside (by simp; omega) (((s.logged l₁).logged l₂).logged l₃)
    refine ⟨l₁ ++ l₂ ++ l₃ ++ l₄, ((hl₁.append hl₂).append hl₃).append hl₄, ?_⟩
    simp only [readEhdr, if_true]
    rw [bind_ok e₁, bind_ok e₂, bind_ok e₃, bind_ok e₄]
    simp only [LoadState.logged_logged]
    rw [eq_ofNat_of_toNat hx₁, eq_ofNat_of_toNat hx₂, h16 hx₃, h16 hx₄]; rfl
  | false =>
    obtain ⟨x₁, l₁, hx₁, hl₁, e₁⟩ := (rd32_fetches b 24).inside (by simp; omega) s
    obtain ⟨x₂, l₂, hx₂, hl₂, e₂⟩ := (rd32_fetches b 28).inside (by simp; omega) (s.logged l₁)
    obtain ⟨x₃, l₃, hx₃, hl₃, e₃⟩ := (rd16_fetches b 42).inside (by simp; omega) ((s.logged l₁).logged l₂)
    obtain ⟨x₄, l₄, hx₄, hl₄, e₄⟩ :=
      (rd16_fetches b 44).inside (by simp; omega) (((s.logged l₁).logged l₂).logged l₃)
    refine ⟨l₁ ++ l₂ ++ l₃ ++ l₄, ((hl₁.append hl₂).append hl₃).append hl₄, ?_⟩
    simp only [readEhdr, Bool.false_eq_true, if_false]
    rw [bind_ok e₁, bind_ok e₂, bind_ok e₃, bind_ok e₄]
    simp only [LoadState.logged_logged]
    rw [toUInt64_eq_ofNat hx₁, toUInt64_eq_ofNat hx₂, h16 hx₃, h16 hx₄]; rfl

variable {ph : UInt64}

theorem readPhdr_inside (is64 : Bool) (h : ph.toNat + pExtent is64 ≤ b.bytes.length)
    (s : LoadState σ) : ∃ l, Reads b l ∧ readPhdr b is64 ph s =
      .ok (UInt64.ofNat (pOffset b is64 ph.toNat), UInt64.ofNat (pLoadAddr b is64 ph.toNat),
        UInt64.ofNat (pFilesz b is64 ph.toNat)) (s.logged l) := by
  have hk (k : UInt64) (hk : k.toNat ≤ 2 ^ 62) : (ph + k).toNat = ph.toNat + k.toNat :=
    toNat_add_small (b := b) (by omega) hk
  cases is64 with
  | true =>
    have h₁ := hk 8 (by decide)
    have h₂ := hk 16 (by decide)
    have h₃ := hk 32 (by decide)
    simp only [UInt64.reduceToNat, pExtent, if_true] at h₁ h₂ h₃ h
    obtain ⟨x₁, l₁, hx₁, hl₁, e₁⟩ := (rd64_fetches b (ph + 8)).inside (by omega) s
    obtain ⟨x₂, l₂, hx₂, hl₂, e₂⟩ := (rd64_fetches b (ph + 16)).inside (by omega) (s.logged l₁)
    obtain ⟨x₃, l₃, hx₃, hl₃, e₃⟩ :=
      (rd64_fetches b (ph + 32)).inside (by omega) ((s.logged l₁).logged l₂)
    refine ⟨l₁ ++ l₂ ++ l₃, (hl₁.append hl₂).append hl₃, ?_⟩
    simp only [readPhdr, if_true]
    rw [bind_ok e₁, bind_ok e₂, bind_ok e₃]
    simp only [LoadState.logged_logged]
    rw [eq_ofNat_of_toNat hx₁, eq_ofNat_of_toNat hx₂, eq_ofNat_of_toNat hx₃, h₁, h₂, h₃]; rfl
  | false =>
    have h₁ := hk 4 (by decide)
    have h₂ := hk 12 (by decide)
    have h₃ := hk 16 (by decide)
    simp only [UInt64.reduceToNat, pExtent, Bool.false_eq_true, if_false] at h₁ h₂ h₃ h
    obtain ⟨x₁, l₁, hx₁, hl₁, e₁⟩ := (rd32_fetches b (ph + 4)).inside (by omega) s
    obtain ⟨x₂, l₂, hx₂, hl₂, e₂⟩ := (rd32_fetches b (ph + 12)).inside (by omega) (s.logged l₁)
    obtain ⟨x₃, l₃, hx₃, hl₃, e₃⟩ :=
      (rd32_fetches b (ph + 16)).inside (by omega) ((s.logged l₁).logged l₂)
    refine ⟨l₁ ++ l₂ ++ l₃, (hl₁.append hl₂).append hl₃, ?_⟩
    simp only [readPhdr, Bool.false_eq_true, if_false]
    rw [bind_ok e₁, bind_ok e₂, bind_ok e₃]
    simp only [LoadState.logged_logged]
    rw [toUInt64_eq_ofNat hx₁, toUInt64_eq_ofNat hx₂, toUInt64_eq_ofNat hx₃, h₁, h₂, h₃]; rfl

theorem throws_of_third {γ : Type} {m₁ m₂ m₃ : LoadM σ α} {toNat : α → Nat} {o₁ o₂ o₃ n : Nat}
    (f₁ : Fetches b o₁ n m₁ toNat) (f₂ : Fetches b o₂ n m₂ toNat) (f₃ : Fetches b o₃ n m₃ toNat)
    (h : ¬ o₃ + n ≤ b.bytes.length) (g : α → α → α → LoadM σ γ) :
    Throws b (do let x ← m₁; let y ← m₂; let z ← m₃; g x y z) :=
  f₁.throws fun _ _ => f₂.throws fun _ _ => Throws.bind (f₃.outside h)

theorem readPhdr_outside (is64 : Bool) (h4 : ph.toNat + 4 ≤ b.bytes.length)
    (h : ¬ ph.toNat + pExtent is64 ≤ b.bytes.length) (s : LoadState σ) :
    ∃ l, Reads b l ∧ readPhdr b is64 ph s = .error .outOfRange (s.logged l) := by
  have hk (k : UInt64) (hk : k.toNat ≤ 2 ^ 62) : (ph + k).toNat = ph.toNat + k.toNat :=
    toNat_add_small (b := b) (by omega) hk
  cases is64 with
  | true =>
    have h₃ := hk 32 (by decide)
    simp only [UInt64.reduceToNat, pExtent, if_true] at h₃ h
    exact throws_of_third (rd64_fetches b (ph + 8)) (rd64_fetches b (ph + 16))
      (rd64_fetches b (ph + 32)) (by omega) _ s
  | false =>
    have h₃ := hk 16 (by decide)
    simp only [UInt64.reduceToNat, pExtent, Bool.false_eq_true, if_false] at h₃ h
    exact throws_of_third (rd32_fetches b (ph + 4)) (rd32_fetches b (ph + 12))
      (rd32_fetches b (ph + 16)) (by omega) _ s

/-! ### The loop body -/

/-- What a program header makes the loop do. -/
inductive PhdrAction
  | unreadable
  | skip
  | exceeds
  | load (addr offset filesz : Nat)
deriving DecidableEq, Repr

/-- The action of the header at `ph`, the segment's end computed modulo `2 ^ 64`. -/
def phdrAction (b : Image) (is64 : Bool) (ph : Nat) : PhdrAction :=
  if ¬ ph + 4 ≤ b.bytes.length then .unreadable
  else if pType b ph ≠ 1 then .skip
  else if ¬ ph + pExtent is64 ≤ b.bytes.length then .unreadable
  else if pFilesz b is64 ph = 0 then .skip
  else if (pOffset b is64 ph + pFilesz b is64 ph) % 2 ^ 64 > b.bytes.length then .exceeds
  else .load (pLoadAddr b is64 ph) (pOffset b is64 ph) (pFilesz b is64 ph)

theorem ePhnum_lt (b : Image) (is64 : Bool) : ePhnum b is64 < 2 ^ 16 := field_lt
theorem ePhentsize_lt (b : Image) (is64 : Bool) : ePhentsize b is64 < 2 ^ 16 := field_lt

theorem ePhoff_lt (b : Image) (is64 : Bool) : ePhoff b is64 < 2 ^ 64 := by
  unfold ePhoff
  split
  · exact field_lt
  · exact field_lt.trans (by decide)

theorem pOffset_lt (b : Image) (is64 : Bool) (ph : Nat) : pOffset b is64 ph < 2 ^ 64 := by
  unfold pOffset
  split
  · exact field_lt
  · exact field_lt.trans (by decide)

theorem pFilesz_lt (b : Image) (is64 : Bool) (ph : Nat) : pFilesz b is64 ph < 2 ^ 64 := by
  unfold pFilesz
  split
  · exact field_lt
  · exact field_lt.trans (by decide)

theorem pLoadAddr_lt (b : Image) (is64 : Bool) (ph : Nat) : pLoadAddr b is64 ph < 2 ^ 64 := by
  unfold pLoadAddr
  split
  · exact field_lt
  · exact field_lt.trans (by decide)

theorem dbgWrite_run (sock : DbgSocket σ) (addr : UInt64) (b : Image) (off : UInt64) (len : UInt32)
    (s : LoadState σ) :
    dbgWrite sock addr b off len s =
      let out := sock s.target ⟨.write, addr, some (b.data off len), len, .incomplete, false⟩
      if out.2.2 = len then .ok () ⟨out.1, s.log ++ [.handed off len]⟩
      else .error .backdoorWriteIncomplete ⟨out.1, s.log ++ [.handed off len]⟩ := by
  obtain ⟨out, hout⟩ : ∃ out, out =
    sock s.target ⟨.write, addr, some (b.data off len), len, .incomplete, false⟩ := ⟨_, rfl⟩
  have hrun : dbgWrite sock addr b off len s =
      (if out.2.2 ≠ len then throw .backdoorWriteIncomplete else pure () : LoadM σ Unit)
        ⟨out.1, s.log ++ [.handed off len]⟩ := by subst hout; rfl
  rw [hrun, ← hout]
  by_cases h : out.2.2 = len
  · rw [if_neg (not_not.2 h)]; simp only [h, if_true]; rfl
  · rw [if_pos h]; simp only [h, if_false]; rfl

/-- What `load` means: `dbg_write` of the low 32 bits of the size. -/
def dbgWriteOf (sock : DbgSocket σ) (b : Image) (addr offset filesz : Nat) : LoadM σ Unit :=
  dbgWrite sock (UInt64.ofNat addr) b (UInt64.ofNat offset) (UInt64.ofNat filesz).toUInt32

/-- The loop body on header `i` does what the header's action says, and reads inside the file. -/
theorem loadPhdr_spec (sock : DbgSocket σ) (b : Image) (is64 : Bool) (phoff : UInt64)
    (phentsize : UInt16) (i : Nat) (s : LoadState σ) :
    ∃ l l', Reads b l ∧ Reads b l' ∧
      let run := loadPhdr sock b is64 phoff phentsize i s
      let seen := l ++ [.header i (phAddr phoff phentsize i)] ++ l'
      match phdrAction b is64 (phAddr phoff phentsize i).toNat with
      | .unreadable => ∃ l'', (l'' = l ∨ l'' = seen) ∧ run = .error .outOfRange (s.logged l'')
      | .skip => run = .ok () (s.logged seen)
      | .exceeds => run = .error .segmentExceedsFile (s.logged seen)
      | .load addr offset filesz => run = dbgWriteOf sock b addr offset filesz (s.logged seen) := by
  obtain ⟨ph, hph⟩ : ∃ ph, ph = phAddr phoff phentsize i := ⟨_, rfl⟩
  simp only [loadPhdr, phdrAction, ← hph]
  have ht := rd32_fetches (σ := σ) b ph
  by_cases h4 : ph.toNat + 4 ≤ b.bytes.length
  swap
  · obtain ⟨l, hl, e⟩ := ht.outside h4 s
    refine ⟨l, [], hl, .nil, ?_⟩
    simp only [h4, not_false_eq_true, if_true]
    exact ⟨l, .inl rfl, bind_error e⟩
  obtain ⟨x, l, hx, hl, e⟩ := ht.inside h4 s
  have hx1 : x ≠ 1 ↔ pType b ph.toNat ≠ 1 := by
    rw [pType, ← hx, ne_eq, ne_eq, ← UInt32.toNat_inj]; rfl
  simp only [h4, not_true_eq_false, if_false, bind_ok e, bind_ok (note_run _ _)]
  by_cases h1 : pType b ph.toNat ≠ 1
  · refine ⟨l, [], hl, .nil, ?_⟩
    simp only [h1, hx1, ne_eq, not_false_eq_true, if_true, List.append_nil, LoadState.logged_logged]
    rfl
  simp only [h1, hx1, if_false]
  by_cases hext : ph.toNat + pExtent is64 ≤ b.bytes.length
  swap
  · obtain ⟨l', hl', e'⟩ := readPhdr_outside is64 h4 hext ((s.logged l).logged [.header i ph])
    refine ⟨l, l', hl, hl', ?_⟩
    simp only [hext, not_false_eq_true, if_true]
    refine ⟨_, .inr rfl, ?_⟩
    show (readPhdr b is64 ph >>= _) _ = _
    rw [bind_error e']
    simp only [LoadState.logged_logged, List.append_assoc]
  obtain ⟨l', hl', e'⟩ := readPhdr_inside is64 hext ((s.logged l).logged [.header i ph])
  refine ⟨l, l', hl, hl', ?_⟩
  have hz : UInt64.ofNat (pFilesz b is64 ph.toNat) = 0 ↔ pFilesz b is64 ph.toNat = 0 := by
    rw [← UInt64.toNat_inj, UInt64.toNat_ofNat', Nat.mod_eq_of_lt (pFilesz_lt ..)]; rfl
  have hgt : UInt64.ofNat (pOffset b is64 ph.toNat) + UInt64.ofNat (pFilesz b is64 ph.toNat) > b.size ↔
      (pOffset b is64 ph.toNat + pFilesz b is64 ph.toNat) % 2 ^ 64 > b.bytes.length := by
    rw [gt_iff_lt, UInt64.lt_iff_toNat_lt, UInt64.toNat_add, UInt64.toNat_ofNat', UInt64.toNat_ofNat',
      Nat.mod_eq_of_lt (pOffset_lt ..), Nat.mod_eq_of_lt (pFilesz_lt ..), b.size_toNat]
  have hseen : (((s.logged l).logged [.header i ph]).logged l') =
      s.logged (l ++ [.header i ph] ++ l') := by simp only [LoadState.logged_logged, List.append_assoc]
  rw [hseen] at e'
  simp only [hext, not_true_eq_false, if_false]
  by_cases h0 : pFilesz b is64 ph.toNat = 0
  · simp only [if_pos h0]
    show (readPhdr b is64 ph >>= _) _ = _
    rw [bind_ok e']
    simp only [if_pos (hz.2 h0)]
    rfl
  simp only [if_neg h0]
  by_cases h2 : (pOffset b is64 ph.toNat + pFilesz b is64 ph.toNat) % 2 ^ 64 > b.bytes.length
  · simp only [if_pos h2]
    show (readPhdr b is64 ph >>= _) _ = _
    rw [bind_ok e']
    simp only [if_neg (mt hz.1 h0), if_pos (hgt.2 h2)]
    rfl
  · simp only [if_neg h2]
    show (readPhdr b is64 ph >>= _) _ = _
    rw [bind_ok e']
    simp only [if_neg (mt hz.1 h0), if_neg (mt hgt.1 h2)]
    rfl

/-! ### The whole file -/

def Image.is64 (b : Image) : Bool := b.bytes.getD 4 0 = 2

/-- The file passes the checks before the program headers. -/
structure IsElf (b : Image) : Prop where
  size : 64 ≤ b.bytes.length
  magic : b.bytes.take 4 = [0x7F, 0x45, 0x4C, 0x46]
  little : b.bytes.getD 5 0 = 1

/-- Where the loader looks for program header `i`. -/
def phAt (b : Image) (i : Nat) : UInt64 :=
  phAddr (UInt64.ofNat (ePhoff b b.is64)) (UInt16.ofNat (ePhentsize b b.is64)) i

def action (b : Image) (i : Nat) : PhdrAction := phdrAction b b.is64 (phAt b i).toNat

def turn (sock : DbgSocket σ) (b : Image) (i : Nat) : LoadM σ Unit :=
  loadPhdr sock b b.is64 (UInt64.ofNat (ePhoff b b.is64)) (UInt16.ofNat (ePhentsize b b.is64)) i

theorem turn_spec (sock : DbgSocket σ) (b : Image) (i : Nat) (s : LoadState σ) :
    ∃ l l', Reads b l ∧ Reads b l' ∧
      match action b i with
      | .unreadable => ∃ l'', (l'' = l ∨ l'' = l ++ [.header i (phAt b i)] ++ l') ∧
          turn sock b i s = .error .outOfRange (s.logged l'')
      | .skip => turn sock b i s = .ok () (s.logged (l ++ [.header i (phAt b i)] ++ l'))
      | .exceeds => turn sock b i s =
          .error .segmentExceedsFile (s.logged (l ++ [.header i (phAt b i)] ++ l'))
      | .load addr offset filesz => turn sock b i s =
          dbgWriteOf sock b addr offset filesz (s.logged (l ++ [.header i (phAt b i)] ++ l')) :=
  loadPhdr_spec sock b b.is64 (UInt64.ofNat (ePhoff b b.is64)) (UInt16.ofNat (ePhentsize b b.is64)) i s

theorem index_run (off : UInt64) (s : LoadState σ) :
    b.index off s = .ok (b.bytes.getD off.toNat 0) (s.logged [.read off]) := rfl

theorem hasMagic_spec (b : Image) (s : LoadState σ) : ∃ l m, Reads b l ∧
    hasMagic b s = .ok m (s.logged l) ∧
    (m = true ↔ 64 ≤ b.bytes.length ∧ b.bytes.take 4 = [0x7F, 0x45, 0x4C, 0x46]) := by
  have hsize : b.size < 64 ↔ ¬ 64 ≤ b.bytes.length := by
    rw [UInt64.lt_iff_toNat_lt, b.size_toNat, Nat.not_le]; rfl
  by_cases h64 : 64 ≤ b.bytes.length
  swap
  · refine ⟨[], false, .nil, ?_, by simp [h64]⟩
    simp only [hasMagic, hsize.2 h64, if_true, LoadState.logged_nil]; rfl
  have r0 : Reads b [.read 0] := .low h64 (by decide)
  have r1 : Reads b [.read 1] := .low h64 (by decide)
  have r2 : Reads b [.read 2] := .low h64 (by decide)
  have r3 : Reads b [.read 3] := .low h64 (by decide)
  have htake : b.bytes.take 4 = [b.bytes.getD 0 0, b.bytes.getD 1 0, b.bytes.getD 2 0, b.bytes.getD 3 0] := by
    match hb : b.bytes with
    | [] | [_] | [_, _] | [_, _, _] => simp [hb] at h64
    | _ :: _ :: _ :: _ :: _ => rfl
  rw [htake]
  simp only [hasMagic, mt hsize.1 (not_not.2 h64), if_false, bind_ok (index_run _ _)]
  simp only [List.cons.injEq, and_true, h64, true_and, UInt64.reduceToNat]
  by_cases h0 : b.bytes.getD 0 0 = 0x7F
  swap
  · exact ⟨[.read 0], false, r0, by simp only [h0, ne_eq, not_false_eq_true, if_true]; rfl,
      by
      simp only [Bool.false_eq_true, h0, false_and]⟩
  simp only [h0, ne_eq, not_true_eq_false, if_false, bind_ok (index_run _ _), LoadState.logged_logged,
    UInt64.reduceToNat, true_and]
  by_cases h1 : b.bytes.getD 1 0 = 0x45
  swap
  · exact ⟨[Access.read 0] ++ [Access.read 1], false, r0.append r1,
      by simp only [h1, not_false_eq_true, if_true]; rfl, by
      simp only [Bool.false_eq_true, h1, false_and]⟩
  simp only [h1, not_true_eq_false, if_false, bind_ok (index_run _ _), LoadState.logged_logged,
    UInt64.reduceToNat, true_and]
  by_cases h2 : b.bytes.getD 2 0 = 0x4C
  swap
  · exact ⟨[Access.read 0] ++ [Access.read 1] ++ [Access.read 2], false,
      (r0.append r1).append r2,
      by simp only [h2, not_false_eq_true, if_true]; rfl, by
      simp only [Bool.false_eq_true, h2, false_and]⟩
  simp only [h2, not_true_eq_false, if_false, bind_ok (index_run _ _), LoadState.logged_logged,
    UInt64.reduceToNat, true_and]
  exact ⟨[Access.read 0] ++ [Access.read 1] ++ [Access.read 2] ++ [Access.read 3], decide (b.bytes.getD 3 0 = 0x46),
    ((r0.append r1).append r2).append r3,
    rfl, by simp⟩

theorem loadElf_rejects (sock : DbgSocket σ) (path : String) (s : LoadState σ) (h : ¬ IsElf b) :
    ∃ l e, Reads b l ∧ loadElf sock path (some b) s = .error e (s.logged l) := by
  obtain ⟨l, m, hl, hm, hiff⟩ := hasMagic_spec b s
  by_cases hmt : m = true
  swap
  · refine ⟨l, .notElf path, hl, ?_⟩
    simp only [loadElf]
    rw [bind_ok hm]
    simp only [hmt, Bool.not_false, if_true]
    rfl
  obtain ⟨h64, htake⟩ := hiff.1 hmt
  have h5 : b.bytes.getD 5 0 ≠ 1 := fun h5 => h ⟨h64, htake, h5⟩
  have r4 : Reads b [.read 4] := .low h64 (by decide)
  have r5 : Reads b [.read 5] := .low h64 (by decide)
  refine ⟨l ++ [Access.read 4] ++ [Access.read 5], .notLittleEndian, (hl.append r4).append r5, ?_⟩
  simp only [loadElf]
  rw [bind_ok hm]
  simp only [hmt, Bool.not_true, Bool.false_eq_true, if_false, bind_ok (index_run _ _),
    LoadState.logged_logged, UInt64.reduceToNat, h5, ne_eq, not_false_eq_true, if_true]
  rfl

/-- On a file that passes the checks, `load_elf` is its segment loop. -/
theorem loadElf_spec (sock : DbgSocket σ) (path : String) (s : LoadState σ) (h : IsElf b) :
    ∃ l, Reads b l ∧ loadElf sock path (some b) s =
      ((List.range (ePhnum b b.is64)).forM (turn sock b) >>= fun _ =>
        pure (UInt64.ofNat (eEntry b b.is64))) (s.logged l) := by
  obtain ⟨l, m, hl, hm, hiff⟩ := hasMagic_spec b s
  have hmt : m = true := hiff.2 ⟨h.size, h.magic⟩
  obtain ⟨l', hl', he⟩ := readEhdr_spec (b := b) b.is64 h.size (((s.logged l).logged [.read 4]).logged [.read 5])
  have r4 : Reads b [.read 4] := .low h.size (by decide)
  have r5 : Reads b [.read 5] := .low h.size (by decide)
  refine ⟨l ++ [Access.read 4] ++ [Access.read 5] ++ l', ((hl.append r4).append r5).append hl', ?_⟩
  have hn : (UInt16.ofNat (ePhnum b b.is64)).toNat = ePhnum b b.is64 := by
    rw [UInt16.toNat_ofNat', Nat.mod_eq_of_lt (ePhnum_lt ..)]
  simp only [loadElf]
  rw [bind_ok hm]
  simp only [hmt, Bool.not_true, Bool.false_eq_true, if_false, bind_ok (index_run _ _),
    UInt64.reduceToNat, h.little, ne_eq, not_true_eq_false]
  show (readEhdr b b.is64 >>= _) _ = _
  rw [bind_ok he]
  simp only [hn, LoadState.logged_logged]
  rfl

end
end CdcVp
