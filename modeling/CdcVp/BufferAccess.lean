import CdcVp.FlatStore

/-!
# Accesses through a pointer

An access takes the memory from a pointer on to a result and the memory it leaves; it is undefined where it goes
past the end. `Confined n` says that only the first `n` cells are touched: the access is defined where there are
no more, its result depends on no others (`DependsOn`), and it changes no others (`Keeps`). A load or a store of
a fixed width is confined to what holds it, and to nothing less.
-/

namespace BufferAccess
open FlatStore

variable {σ β : Type*}

abbrev MemOp (σ β : Type*) := List β → Option (σ × List β)

/-- Takes `k` cells. -/
def load (k : Nat) (g : List β → σ) : MemOp σ β := fun m =>
  if m.length < k then none else some (g (m.take k), m)

/-- Puts `src` at the pointer. -/
def store (a : σ) (src : List β) : MemOp σ β := fun m =>
  if m.length < src.length then none else some (a, blit m 0 src)

def DependsOn (n : Nat) (f : MemOp σ β) : Prop :=
  ∀ buf rest rest' r r', buf.length = n → f (buf ++ rest) = some r → f (buf ++ rest') = some r' → r.1 = r'.1

def Keeps (n : Nat) (f : MemOp σ β) : Prop :=
  ∀ buf rest r, buf.length = n → f (buf ++ rest) = some r → r.2.drop n = rest

structure Confined (n : Nat) (f : MemOp σ β) : Prop where
  defined : ∀ buf, buf.length = n → (f buf).isSome
  depends : DependsOn n f
  keeps : Keeps n f

variable {n k : Nat} {g : List β → σ} {a : σ} {src m : List β} {r : σ × List β}

theorem load_eq_some (h : load k g m = some r) : k ≤ m.length ∧ r = (g (m.take k), m) := by
  unfold load at h
  split at h
  · cases h
  · rename_i hk
    cases h
    exact ⟨Nat.le_of_not_lt hk, rfl⟩

theorem store_eq_some (h : store a src m = some r) : src.length ≤ m.length ∧ r = (a, blit m 0 src) := by
  unfold store at h
  split at h
  · cases h
  · rename_i hk
    cases h
    exact ⟨Nat.le_of_not_lt hk, rfl⟩

theorem load_of_le (h : k ≤ m.length) : load k g m = some (g (m.take k), m) := if_neg (Nat.not_lt.2 h)

theorem store_of_le (h : src.length ≤ m.length) : store a src m = some (a, blit m 0 src) := if_neg (Nat.not_lt.2 h)

theorem keeps_load : Keeps n (load k g) := by
  rintro buf rest r rfl h
  obtain ⟨-, rfl⟩ := load_eq_some h
  exact List.drop_left

theorem dependsOn_store : DependsOn n (store a src) := by
  rintro buf rest rest' r r' - h h'
  obtain ⟨-, rfl⟩ := store_eq_some h
  obtain ⟨-, rfl⟩ := store_eq_some h'
  rfl

theorem dependsOn_load (hk : k ≤ n) : DependsOn n (load k g) := by
  rintro buf rest rest' r r' rfl h h'
  obtain ⟨-, rfl⟩ := load_eq_some h
  obtain ⟨-, rfl⟩ := load_eq_some h'
  rw [List.take_append_of_le_length hk, List.take_append_of_le_length hk]

/-- A load that needs more cells than the result depends on. -/
theorem dependsOn_load_iff (hn : n ≤ k) : DependsOn n (load k g) ↔
    ∀ m m' : List β, m.length = k → m'.length = k → m.take n = m'.take n → g m = g m' := by
  constructor
  · intro h m m' hm hm' he
    have hlen : (m.take n).length = n := by rw [List.length_take, hm, Nat.min_eq_left hn]
    have hl : load k g (m.take n ++ m.drop n) = some (g m, m) := by
      rw [List.take_append_drop, load_of_le (Nat.le_of_eq hm.symm), List.take_of_length_le (Nat.le_of_eq hm)]
    have hl' : load k g (m.take n ++ m'.drop n) = some (g m', m') := by
      rw [he, List.take_append_drop, load_of_le (Nat.le_of_eq hm'.symm),
        List.take_of_length_le (Nat.le_of_eq hm')]
    exact h _ _ _ _ _ hlen hl hl'
  · rintro h buf rest rest' r r' rfl hl hl'
    obtain ⟨hk, rfl⟩ := load_eq_some hl
    obtain ⟨hk', rfl⟩ := load_eq_some hl'
    refine h _ _ ?_ ?_ ?_
    · rw [List.length_take, Nat.min_eq_left hk]
    · rw [List.length_take, Nat.min_eq_left hk']
    · rw [List.take_take, List.take_take, Nat.min_eq_left hn, List.take_left, List.take_left]

/-- The access goes through on some buffer of `n` cells. -/
theorem Confined.exists_some {f : MemOp σ β} [Nonempty β] (h : Confined n f) :
    ∃ buf r, buf.length = n ∧ f buf = some r := by
  have hlen : (List.replicate n (Classical.arbitrary β)).length = n := List.length_replicate
  obtain ⟨r, hr⟩ := Option.isSome_iff_exists.1 (h.defined _ hlen)
  exact ⟨_, r, hlen, hr⟩

theorem confined_load_iff [Nonempty β] : Confined n (load k g) ↔ k ≤ n := by
  constructor
  · intro h
    obtain ⟨buf, r, rfl, hr⟩ := h.exists_some
    exact (load_eq_some hr).1
  · refine fun hk => ⟨fun buf hb => ?_, dependsOn_load hk, keeps_load⟩
    rw [load_of_le (hb ▸ hk)]
    rfl

/-- A store past the first `n` cells changes memory that holds something else. -/
theorem keeps_store_iff [Nontrivial β] : Keeps n (store a src) ↔ src.length ≤ n := by
  constructor
  · intro h
    by_contra hlt
    have hn : n < src.length := Nat.lt_of_not_le hlt
    obtain ⟨y, hy⟩ := exists_ne src[n]
    have hlen : src.length ≤ (List.replicate n y ++ List.replicate (src.length - n) y).length := by
      simp only [List.length_append, List.length_replicate]
      omega
    have hdrop := h _ _ _ List.length_replicate (store_of_le hlen)
    have hfirst := congrArg (fun l => l[0]?) hdrop
    simp only [List.getElem?_drop] at hfirst
    rw [getElem?_blit (by omega), if_pos (by omega), List.getElem?_replicate, if_pos (by omega),
      List.getElem?_eq_getElem (by omega)] at hfirst
    exact hy (Option.some.inj hfirst).symm
  · rintro hs buf rest r rfl h
    obtain ⟨hlen, rfl⟩ := store_eq_some h
    refine List.ext_getElem? fun i => ?_
    rw [List.getElem?_drop, getElem?_blit (by omega), if_neg (by omega), List.getElem?_append_right (by omega),
      Nat.add_sub_cancel_left]

theorem confined_store_iff [Nontrivial β] : Confined n (store a src) ↔ src.length ≤ n := by
  constructor
  · intro h
    obtain ⟨buf, r, rfl, hr⟩ := h.exists_some
    exact (store_eq_some hr).1
  · refine fun hs => ⟨fun buf hb => ?_, dependsOn_store, keeps_store_iff.2 hs⟩
    rw [store_of_le (hb ▸ hs)]
    rfl

end BufferAccess
