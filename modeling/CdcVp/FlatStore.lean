import Mathlib.Algebra.GroupWithZero.Nat
import Mathlib.Data.List.Induction

/-!
# Partial byte stores

`Store β` is a memory seen from outside: what each address holds, or `none` where nothing is mapped.
A *block* is an address with the bytes laid out from it. `ofBlocks` maps a list of blocks, `write`
overwrites one span and `writes` a list of them, in order; `lastByte` is the history reading of
`writes` (the byte the last covering write put there). `ofBlocks_set_blit` is the connection to
arrays: overwriting part of one of several disjoint blocks is one `write` of the whole store.
-/

namespace FlatStore

variable {β : Type*}

/-- What each address holds; `none` where nothing is mapped. -/
abbrev Store (β : Type*) := Nat → Option β

/-- Bytes laid out from an address. -/
abbrev Block (β : Type*) := Nat × List β

namespace Block

/-- The byte the block puts at address `x`. -/
def byteAt (w : Block β) (x : Nat) : Option β := if w.1 ≤ x then w.2[x - w.1]? else none

def Covers (w : Block β) (x : Nat) : Prop := w.1 ≤ x ∧ x < w.1 + w.2.length

theorem byteAt_eq_none {w : Block β} {x : Nat} : w.byteAt x = none ↔ ¬ w.Covers x := by
  unfold byteAt Covers
  split
  · rw [List.getElem?_eq_none_iff]; omega
  · simp; omega

theorem byteAt_isSome {w : Block β} {x : Nat} : (w.byteAt x).isSome ↔ w.Covers x := by
  rw [← not_iff_not, ← byteAt_eq_none]; simp

theorem byteAt_of_not_covers {w : Block β} {x : Nat} (h : ¬ w.Covers x) : w.byteAt x = none :=
  byteAt_eq_none.2 h

end Block

/-! ### Writing -/

namespace Store

def empty : Store β := fun _ => none

/-- `m` with the bytes of `w` stored over it. -/
def write (m : Store β) (w : Block β) : Store β := fun x => (w.byteAt x).or (m x)

def writes (m : Store β) (ws : List (Block β)) : Store β := ws.foldl write m

variable {m : Store β} {w : Block β} {ws : List (Block β)} {x : Nat}

@[simp] theorem writes_nil (m : Store β) : m.writes [] = m := rfl

@[simp] theorem writes_cons (m : Store β) (w : Block β) (ws : List (Block β)) :
    m.writes (w :: ws) = (m.write w).writes ws := rfl

theorem writes_append (m : Store β) (ws vs : List (Block β)) :
    m.writes (ws ++ vs) = (m.writes ws).writes vs := by
  simp [writes]

theorem writes_concat (m : Store β) (ws : List (Block β)) (w : Block β) :
    m.writes (ws ++ [w]) = (m.writes ws).write w := by
  rw [writes_append]; rfl

/-- A write leaves the store iff each of its bytes is there already. -/
theorem write_eq_self_iff : m.write w = m ↔ ∀ x b, w.byteAt x = some b → m x = some b := by
  constructor
  · intro h x b hb
    have hx := congrFun h x
    rw [write, hb, Option.some_or] at hx
    exact hx.symm
  · intro h
    funext x
    rw [write]
    cases hb : w.byteAt x with
    | none => exact Option.none_or
    | some b => rw [h x b hb, Option.some_or]

end Store

/-! ### Blocks side by side, and the last of several writes -/

/-- The store that maps `bs`, the first block winning where two cover an address. -/
def ofBlocks (bs : List (Block β)) : Store β := fun x => bs.findSome? fun w => w.byteAt x

/-- The byte the last covering block of `ws` put at `x`. -/
def lastByte (ws : List (Block β)) (x : Nat) : Option β := ws.reverse.findSome? fun w => w.byteAt x

theorem lastByte_concat (ws : List (Block β)) (w : Block β) (x : Nat) :
    lastByte (ws ++ [w]) x = (w.byteAt x).or (lastByte ws x) := by
  simp only [lastByte, List.reverse_append, List.reverse_singleton, List.singleton_append,
    List.findSome?_cons]
  cases w.byteAt x <;> rfl

/-- A store after some writes holds the last byte written there, or what it held before them. -/
theorem Store.writes_apply (m : Store β) (ws : List (Block β)) (x : Nat) :
    m.writes ws x = (lastByte ws x).or (m x) := by
  induction ws using List.reverseRecOn with
  | nil => rfl
  | append_singleton ws w ih => rw [writes_concat, lastByte_concat, Option.or_assoc, ← ih]; rfl

theorem lastByte_eq_none {ws : List (Block β)} {x : Nat} :
    lastByte ws x = none ↔ ∀ w ∈ ws, ¬ w.Covers x := by
  simp [lastByte, List.findSome?_eq_none_iff, Block.byteAt_eq_none]

section ofBlocks
variable {bs : List (Block β)} {i : Nat} {a off x : Nat} {d src : List β}

/-- No address is covered by two of the blocks. -/
def Apart (bs : List (Block β)) : Prop :=
  bs.Pairwise fun v w => ∀ x, ¬ (v.Covers x ∧ w.Covers x)

theorem ofBlocks_of_covers (h : Apart bs) {w : Block β} (hw : bs[i]? = some w)
    (hx : w.Covers x) : ofBlocks bs x = w.byteAt x := by
  induction bs generalizing i with
  | nil => simp at hw
  | cons v bs ih =>
    obtain ⟨hv, hbs⟩ := List.pairwise_cons.1 h
    cases i with
    | zero =>
      obtain rfl : v = w := by simpa using hw
      obtain ⟨b, hb⟩ := Option.isSome_iff_exists.1 (Block.byteAt_isSome.2 hx)
      simp [ofBlocks, hb]
    | succ i =>
      have hw' : bs[i]? = some w := by simpa using hw
      have hvx : ¬ v.Covers x := fun hvx => hv w (List.mem_of_getElem? hw') x ⟨hvx, hx⟩
      rw [ofBlocks, List.findSome?_cons, Block.byteAt_of_not_covers hvx]
      exact ih hbs hw'

end ofBlocks

/-! ### Blocks in cells -/

/-- Some block covers both `x` and the address after it. -/
def Linked (ws : List (Block β)) (x : Nat) : Prop := ∃ w ∈ ws, w.Covers x ∧ w.Covers (x + 1)

/-- Two lists of blocks leave the same bytes at the same addresses and join the same neighbours. -/
structure SamePlacement (ws vs : List (Block β)) : Prop where
  bytes : ∀ x, lastByte ws x = lastByte vs x
  linked : ∀ x, Linked ws x ↔ Linked vs x

section cells
variable {κ : Type*} {R : Nat → κ → Prop} {ws vs : List (Block β)} {w : Block β}

/-- Every address of the block lies in one cell of `R`. -/
def InCell (R : Nat → κ → Prop) (w : Block β) : Prop := ∃ c, ∀ x, w.Covers x → R x c

/-- Cells that do not meet hold a block whole iff they hold each of its addresses and never part two
neighbours. -/
theorem inCell_iff (hR : ∀ x c c', R x c → R x c' → c = c') (hpos : 0 < w.2.length) :
    InCell R w ↔ (∀ x, w.Covers x → ∃ c, R x c) ∧
      ∀ x, w.Covers x → w.Covers (x + 1) → ∀ c, R x c → R (x + 1) c := by
  constructor
  · rintro ⟨c, hc⟩
    refine ⟨fun x hx => ⟨c, hc x hx⟩, ?_⟩
    intro x hx hx' c' hc'
    rw [hR x c' c hc' (hc x hx)]
    exact hc _ hx'
  · rintro ⟨hall, hnext⟩
    obtain ⟨c, hc⟩ := hall w.1 ⟨Nat.le_refl _, by omega⟩
    have key (n : Nat) (hn : n < w.2.length) : R (w.1 + n) c := by
      induction n with
      | zero => exact hc
      | succ n ih => exact hnext (w.1 + n) ⟨by omega, by omega⟩ ⟨by omega, by omega⟩ c (ih (by omega))
    refine ⟨c, ?_⟩
    rintro x ⟨h1, h2⟩
    have := key (x - w.1) (by omega)
    rwa [Nat.add_sub_cancel' h1] at this

theorem all_inCell_iff (hR : ∀ x c c', R x c → R x c' → c = c') (hpos : ∀ w ∈ ws, 0 < w.2.length) :
    (∀ w ∈ ws, InCell R w) ↔ (∀ x, (lastByte ws x).isSome → ∃ c, R x c) ∧
      ∀ x, Linked ws x → ∀ c, R x c → R (x + 1) c := by
  have hsome (x : Nat) : (lastByte ws x).isSome ↔ ∃ w ∈ ws, w.Covers x := by
    rw [Option.isSome_iff_ne_none, ne_eq, lastByte_eq_none]
    simp
  constructor
  · intro h
    refine ⟨fun x hx => ?_, fun x ⟨w, hw, hx, hx'⟩ => ((inCell_iff hR (hpos w hw)).1 (h w hw)).2 x hx hx'⟩
    obtain ⟨w, hw, hc⟩ := (hsome x).1 hx
    exact ((inCell_iff hR (hpos w hw)).1 (h w hw)).1 x hc
  · rintro ⟨hall, hnext⟩ w hw
    exact (inCell_iff hR (hpos w hw)).2 ⟨fun x hx => hall x ((hsome x).2 ⟨w, hw, hx⟩),
      fun x hx hx' => hnext x ⟨w, hw, hx, hx'⟩⟩

/-- Cells cannot tell two lists with the same placement apart. -/
theorem SamePlacement.all_inCell_iff (h : SamePlacement ws vs) (hR : ∀ x c c', R x c → R x c' → c = c')
    (hws : ∀ w ∈ ws, 0 < w.2.length) (hvs : ∀ v ∈ vs, 0 < v.2.length) :
    (∀ w ∈ ws, InCell R w) ↔ ∀ v ∈ vs, InCell R v := by
  rw [FlatStore.all_inCell_iff hR hws, FlatStore.all_inCell_iff hR hvs]
  simp only [h.bytes, h.linked]

theorem SamePlacement.writes (h : SamePlacement ws vs) (m : Store β) : m.writes ws = m.writes vs := by
  funext x
  rw [Store.writes_apply, Store.writes_apply, h.bytes]

end cells

/-! ### Overwriting part of an array -/

/-- `memcpy(d + off, src)`: the elements of `d` from `off` on replaced by `src`. -/
def blit (d : List β) (off : Nat) (src : List β) : List β :=
  d.take off ++ src ++ d.drop (off + src.length)

section blit
variable {d src : List β} {a off x : Nat}

theorem length_blit (h : off + src.length ≤ d.length) : (blit d off src).length = d.length := by
  simp [blit]; omega

theorem getElem?_blit (h : off + src.length ≤ d.length) (i : Nat) :
    (blit d off src)[i]? =
      if off ≤ i ∧ i < off + src.length then src[i - off]? else d[i]? := by
  have hlen : (d.take off).length = off := by simp; omega
  unfold blit
  split
  · rename_i hi
    rw [List.append_assoc, List.getElem?_append_right (by omega), hlen,
      List.getElem?_append_left (by omega)]
  · rename_i hi
    by_cases hlt : i < off
    · rw [List.append_assoc, List.getElem?_append_left (by omega), List.getElem?_take_of_lt hlt]
    · rw [List.getElem?_append_right (by simp; omega), List.getElem?_drop]
      simp only [List.length_append, hlen]
      congr 1; omega

theorem blit_all (h : src.length = d.length) : blit d 0 src = src := by
  rw [blit, Nat.zero_add, h, List.drop_length, List.take_zero, List.nil_append, List.append_nil]

/-- Two overwrites side by side are one. -/
theorem blit_blit {src' : List β} (h : off + (src ++ src').length ≤ d.length) :
    blit (blit d off src) (off + src.length) src' = blit d off (src ++ src') := by
  have hlen : off + src.length + src'.length ≤ d.length := by
    rw [List.length_append] at h
    omega
  have hin : (blit d off src).length = d.length := length_blit (by omega)
  refine List.ext_getElem? fun i => ?_
  rw [getElem?_blit (by omega), getElem?_blit (by omega), getElem?_blit h, List.length_append]
  by_cases h1 : off + src.length ≤ i
  · by_cases h2 : i < off + src.length + src'.length
    · rw [if_pos ⟨h1, h2⟩, if_pos ⟨by omega, by omega⟩, List.getElem?_append_right (by omega)]
      congr 1
      omega
    · rw [if_neg (by omega), if_neg (by omega), if_neg (by omega)]
  · rw [if_neg fun h => h1 h.1]
    by_cases h3 : off ≤ i
    · rw [if_pos ⟨h3, by omega⟩, if_pos ⟨h3, by omega⟩, List.getElem?_append_left (by omega)]
    · rw [if_neg fun h => h3 h.1, if_neg fun h => h3 h.1]

/-- Overwriting inside a block is a write of the store the block is. -/
theorem byteAt_blit (h : off + src.length ≤ d.length) (x : Nat) :
    Block.byteAt (a, blit d off src) x = (Block.byteAt (a + off, src) x).or (Block.byteAt (a, d) x) := by
  unfold Block.byteAt
  by_cases hx : a ≤ x
  · simp only [hx, if_true, getElem?_blit h]
    by_cases hin : off ≤ x - a ∧ x - a < off + src.length
    · have h1 : a + off ≤ x := by omega
      have h2 : x - (a + off) < src.length := by omega
      simp only [hin, h1, if_true, and_self, List.getElem?_eq_getElem h2, Option.some_or,
        show x - a - off = x - (a + off) by omega]
    · have hsrc : (if a + off ≤ x then src[x - (a + off)]? else none) = none := by
        split
        · exact List.getElem?_eq_none (by omega)
        · rfl
      rw [hsrc, if_neg hin, Option.none_or]
  · have h1 : ¬ a + off ≤ x := by omega
    simp [hx, h1]

/-- Overwriting part of one of several disjoint blocks is a write of the store they make up. -/
theorem ofBlocks_set_blit {bs : List (Block β)} {i : Nat} (hd : Apart bs)
    (hi : bs[i]? = some (a, d)) (h : off + src.length ≤ d.length) :
    ofBlocks (bs.set i (a, blit d off src)) = (ofBlocks bs).write (a + off, src) := by
  funext x
  induction bs generalizing i with
  | nil => simp at hi
  | cons v bs ih =>
    obtain ⟨hv, hbs⟩ := List.pairwise_cons.1 hd
    cases i with
    | zero =>
      obtain rfl : v = (a, d) := by simpa using hi
      simp only [List.set_cons_zero, ofBlocks, List.findSome?_cons, byteAt_blit h, Store.write]
      cases Block.byteAt (a + off, src) x <;> rfl
    | succ i =>
      have hi' : bs[i]? = some (a, d) := by simpa using hi
      have hvs : v.Covers x → ¬ Block.Covers (a + off, src) x := by
        intro hvx hsx
        refine hv _ (List.mem_of_getElem? hi') x ⟨hvx, ?_⟩
        obtain ⟨h1, h2⟩ := hsx
        dsimp only at h1 h2
        exact ⟨by dsimp only; omega, by dsimp only; omega⟩
      rw [List.set_cons_succ]
      by_cases hvx : v.Covers x
      · obtain ⟨b, hb⟩ := Option.isSome_iff_exists.1 (Block.byteAt_isSome.2 hvx)
        simp [Store.write, ofBlocks, hb, Block.byteAt_of_not_covers (hvs hvx)]
      · have hn := Block.byteAt_of_not_covers hvx
        have := ih hbs hi'
        simp only [ofBlocks, List.findSome?_cons, hn, Store.write] at this ⊢
        exact this

end blit

/-! ### Cutting a block -/

/-- Consecutive spans from `a`, each an address and a length. -/
def cuts : Nat → List Nat → List (Nat × Nat)
  | _, [] => []
  | a, n :: ns => (a, n) :: cuts (a + n) ns

/-- The bytes of `w` in the span `s`. -/
def Block.part (w : Block β) (s : Nat × Nat) : Block β := (s.1, (w.2.drop (s.1 - w.1)).take s.2)

section cuts
variable {w : Block β} {s : Nat × Nat} {order : List (Nat × Nat)} {ns : List Nat} {a x : Nat}

theorem le_of_mem_cuts (h : s ∈ cuts a ns) : a ≤ s.1 ∧ s.1 + s.2 ≤ a + ns.sum := by
  induction ns generalizing a with
  | nil => simp [cuts] at h
  | cons n ns ih =>
    rw [List.sum_cons]
    rcases List.mem_cons.1 h with rfl | h
    · dsimp only
      omega
    · have := ih h
      omega

theorem exists_mem_cuts (h1 : a ≤ x) (h2 : x < a + ns.sum) : ∃ s ∈ cuts a ns, s.1 ≤ x ∧ x < s.1 + s.2 := by
  induction ns generalizing a with
  | nil => simp at h2; omega
  | cons n ns ih =>
    rw [List.sum_cons] at h2
    by_cases hx : x < a + n
    · exact ⟨(a, n), List.mem_cons_self, h1, hx⟩
    · obtain ⟨s, hs, hb⟩ := ih (a := a + n) (by omega) (by omega)
      exact ⟨s, List.mem_cons_of_mem _ hs, hb⟩

namespace Block

theorem byteAt_part (h : w.1 ≤ s.1) (x : Nat) :
    (w.part s).byteAt x = if s.1 ≤ x ∧ x < s.1 + s.2 then w.byteAt x else none := by
  rw [byteAt, byteAt, part]
  by_cases h1 : s.1 ≤ x
  · by_cases h2 : x < s.1 + s.2
    · rw [if_pos h1, if_pos ⟨h1, h2⟩, if_pos (Nat.le_trans h h1), List.getElem?_take_of_lt (by omega),
        List.getElem?_drop]
      congr 1
      omega
    · rw [if_pos h1, if_neg fun h => h2 h.2]
      exact List.getElem?_eq_none (by simp; omega)
  · rw [if_neg h1, if_neg fun h => h1 h.1]

/-- Parts of one block agree with it, whichever was written last. -/
theorem lastByte_parts (h : ∀ s ∈ order, w.1 ≤ s.1) (x : Nat) : lastByte (order.map w.part) x =
    if ∃ s ∈ order, s.1 ≤ x ∧ x < s.1 + s.2 then w.byteAt x else none := by
  induction order using List.reverseRecOn with
  | nil => simp [lastByte]
  | append_singleton order s ih =>
    have hs := h s (by simp)
    rw [List.map_append, List.map_singleton, lastByte_concat, byteAt_part hs,
      ih fun s hs => h s (List.mem_append_left _ hs)]
    by_cases hin : s.1 ≤ x ∧ x < s.1 + s.2
    · have hex : ∃ s' ∈ order ++ [s], s'.1 ≤ x ∧ x < s'.1 + s'.2 :=
        ⟨s, List.mem_append_right _ List.mem_cons_self, hin⟩
      rw [if_pos hin, if_pos hex]
      cases w.byteAt x with
      | none => split <;> rfl
      | some b => rfl
    · have hiff : (∃ s' ∈ order ++ [s], s'.1 ≤ x ∧ x < s'.1 + s'.2) ↔
          ∃ s' ∈ order, s'.1 ≤ x ∧ x < s'.1 + s'.2 := by
        simp only [List.mem_append, List.mem_singleton]
        constructor
        · rintro ⟨s', hs' | rfl, hb⟩
          · exact ⟨s', hs', hb⟩
          · exact absurd hb hin
        · rintro ⟨s', hs', hb⟩
          exact ⟨s', .inl hs', hb⟩
      rw [if_neg hin, Option.none_or]
      simp only [hiff]

end Block

/-- Writing a block piece by piece, in any order, is writing it. -/
theorem Store.writes_parts (m : Store β) (hperm : order.Perm (cuts w.1 ns)) (hsum : ns.sum = w.2.length) :
    m.writes (order.map w.part) = m.write w := by
  funext x
  have hle (s : Nat × Nat) (hs : s ∈ order) : w.1 ≤ s.1 ∧ s.1 + s.2 ≤ w.1 + w.2.length := by
    rw [← hsum]
    exact le_of_mem_cuts (hperm.mem_iff.1 hs)
  rw [writes_apply, Block.lastByte_parts fun s hs => (hle s hs).1]
  by_cases hx : w.Covers x
  · obtain ⟨s, hs, hb⟩ : ∃ s ∈ cuts w.1 ns, s.1 ≤ x ∧ x < s.1 + s.2 :=
      exists_mem_cuts hx.1 (by rw [hsum]; exact hx.2)
    rw [if_pos ⟨s, hperm.mem_iff.2 hs, hb⟩]
    rfl
  · have hno : ¬ ∃ s ∈ order, s.1 ≤ x ∧ x < s.1 + s.2 := by
      rintro ⟨s, hs, h1, h2⟩
      obtain ⟨h3, h4⟩ := hle s hs
      exact hx ⟨Nat.le_trans h3 h1, Nat.lt_of_lt_of_le h2 h4⟩
    rw [if_neg hno, write, Block.byteAt_of_not_covers hx]

end cuts

/-! ### Accesses -/

/-- Bytes read off a store, or written to it. -/
inductive StoreAccess (β : Type*)
  | read (w : Block β)
  | wrote (w : Block β)
deriving DecidableEq, Repr

/-- The store `m` answers the accesses one after another and ends as `m'`. -/
inductive Serves : Store β → List (StoreAccess β) → Store β → Prop
  | nil (m : Store β) : Serves m [] m
  | read {m m' : Store β} {w : Block β} {es : List (StoreAccess β)} :
      (∀ x, w.Covers x → w.byteAt x = m x) → Serves m es m' → Serves m (.read w :: es) m'
  | wrote {m m' : Store β} {w : Block β} {es : List (StoreAccess β)} :
      Serves (m.write w) es m' → Serves m (.wrote w :: es) m'

namespace Serves
variable {m m' m'' : Store β} {es es' : List (StoreAccess β)} {w : Block β}

theorem append (h : Serves m es m') (h' : Serves m' es' m'') : Serves m (es ++ es') m'' := by
  induction h with
  | nil => exact h'
  | read hw _ ih => exact .read hw (ih h')
  | wrote _ ih => exact .wrote (ih h')

theorem of_read (h : ∀ x, w.Covers x → w.byteAt x = m x) : Serves m [.read w] m := .read h (.nil m)

theorem of_wrote (h : m' = m.write w) : Serves m [.wrote w] m' := by
  rw [h]
  exact .wrote (.nil _)

end Serves

end FlatStore
