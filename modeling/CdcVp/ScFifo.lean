import Mathlib.Data.List.Basic

/-!
# Bounded FIFOs with delta-delayed counts

A FIFO channel of a discrete-event kernel. A read takes its word at once and a write stores it at once,
but the counts that readers and writers look at are refreshed only by `update`, at the end of a delta
cycle: a word written in this cycle is not available yet, and the place of a word read in it is not free
yet. The fields `length_eq`, `read_le` and `le_size` say how the counts bound the contents.
-/

structure ScFifo (α : Type*) (size : Nat) where
  contents : List α
  numReadable : Nat
  numRead : Nat
  numWritten : Nat
  length_eq : contents.length + numRead = numReadable + numWritten
  read_le : numRead ≤ numReadable
  le_size : numReadable + numWritten ≤ size

namespace ScFifo

variable {α : Type*} {size : Nat}

def empty : ScFifo α size where
  contents := []
  numReadable := 0
  numRead := 0
  numWritten := 0
  length_eq := rfl
  read_le := Nat.le_refl 0
  le_size := Nat.zero_le size

def numAvailable (f : ScFifo α size) : Nat := f.numReadable - f.numRead

def numFree (f : ScFifo α size) : Nat := size - f.numReadable - f.numWritten

def nbRead (f : ScFifo α size) : Option (α × ScFifo α size) :=
  if h : f.numAvailable = 0 then none
  else match hc : f.contents with
    | [] => none
    | a :: rest => some (a, { f with
        contents := rest
        numRead := f.numRead + 1
        length_eq := by have := f.length_eq; simp only [hc, List.length_cons] at this; omega
        read_le := by unfold numAvailable at h; omega })

def nbWrite (f : ScFifo α size) (a : α) : Option (ScFifo α size) :=
  if h : f.numFree = 0 then none
  else some { f with
    contents := f.contents ++ [a]
    numWritten := f.numWritten + 1
    length_eq := by have := f.length_eq; rw [List.length_append, List.length_singleton]; omega
    le_size := by unfold numFree at h; omega }

/-- The update phase. -/
def update (f : ScFifo α size) : ScFifo α size where
  contents := f.contents
  numReadable := f.contents.length
  numRead := 0
  numWritten := 0
  length_eq := rfl
  read_le := Nat.zero_le _
  le_size := by have := f.length_eq; have := f.le_size; omega

/-- At most `n` reads, until one fails. -/
def drainBy : Nat → ScFifo α size → ScFifo α size
  | 0, f => f
  | n + 1, f =>
    match f.nbRead with
    | none => f
    | some (_, f') => drainBy n f'

/-- Reads until one fails, which is after as many as there are words available. -/
def drain (f : ScFifo α size) : ScFifo α size := drainBy f.numAvailable f

variable {f f' : ScFifo α size} {a : α}

theorem length_le (f : ScFifo α size) : f.contents.length ≤ size := by
  have := f.length_eq
  have := f.le_size
  omega

/-- With nothing written since the last update, all that is in the FIFO is available. -/
theorem length_eq_numAvailable (h : f.numWritten = 0) : f.contents.length = f.numAvailable := by
  have := f.length_eq
  unfold numAvailable
  omega

theorem numAvailable_of_nbRead (h : f.nbRead = some (a, f')) : f.numAvailable = f'.numAvailable + 1 := by
  unfold nbRead at h
  split at h
  · cases h
  · rename_i hne
    split at h
    · cases h
    · cases h
      unfold numAvailable at *
      dsimp only
      omega

theorem nbRead_eq_none : f.nbRead = none ↔ f.numAvailable = 0 := by
  unfold nbRead
  split
  · rename_i h
    exact iff_of_true rfl h
  · rename_i h
    split
    · rename_i hc
      have hl := f.length_eq
      have hr := f.read_le
      rw [hc, List.length_nil] at hl
      exact iff_of_true rfl (by unfold numAvailable; omega)
    · exact iff_of_false (by simp) h

/-- A read takes the front word and leaves the free count as it is. -/
theorem nbRead_eq_some (h : f.nbRead = some (a, f')) : f.contents = a :: f'.contents ∧
    f'.numReadable = f.numReadable ∧ f'.numRead = f.numRead + 1 ∧ f'.numWritten = f.numWritten := by
  unfold nbRead at h
  split at h
  · cases h
  · split at h
    · cases h
    · rename_i hc
      cases h
      exact ⟨hc, rfl, rfl, rfl⟩

theorem nbWrite_eq_some (h : f.nbWrite a = some f') : f'.contents = f.contents ++ [a] ∧
    f'.numReadable = f.numReadable ∧ f'.numRead = f.numRead ∧ f'.numWritten = f.numWritten + 1 := by
  unfold nbWrite at h
  split at h
  · cases h
  · cases h
    exact ⟨rfl, rfl, rfl, rfl⟩

theorem numAvailable_of_nbWrite (h : f.nbWrite a = some f') : f'.numAvailable = f.numAvailable := by
  obtain ⟨-, h1, h2, -⟩ := nbWrite_eq_some h
  rw [numAvailable, numAvailable, h1, h2]

theorem nbWrite_eq_none : f.nbWrite a = none ↔ f.numFree = 0 := by
  unfold nbWrite
  split <;> simp [*]

theorem numFree_of_nbRead (h : f.nbRead = some (a, f')) : f'.numFree = f.numFree := by
  obtain ⟨-, h1, -, h2⟩ := nbRead_eq_some h
  rw [numFree, numFree, h1, h2]

theorem exists_nbRead {rest : List α} (hc : f.contents = a :: rest) (h : f.numAvailable ≠ 0) :
    ∃ f', f.nbRead = some (a, f') := by
  cases hr : f.nbRead with
  | none => exact absurd (nbRead_eq_none.1 hr) h
  | some r =>
    obtain ⟨b, f'⟩ := r
    obtain ⟨hb, -⟩ := nbRead_eq_some hr
    obtain ⟨rfl, -⟩ := List.cons.inj (hc.symm.trans hb)
    exact ⟨f', rfl⟩

theorem exists_nbWrite (h : f.numFree ≠ 0) (a : α) : ∃ f', f.nbWrite a = some f' := by
  cases hw : f.nbWrite a with
  | none => exact absurd (nbWrite_eq_none.1 hw) h
  | some f' => exact ⟨f', rfl⟩

@[simp] theorem update_contents (f : ScFifo α size) : f.update.contents = f.contents := rfl

@[simp] theorem numAvailable_update (f : ScFifo α size) : f.update.numAvailable = f.contents.length := rfl

@[simp] theorem numFree_update (f : ScFifo α size) : f.update.numFree = size - f.contents.length := rfl

theorem numFree_le_update (f : ScFifo α size) : f.numFree ≤ f.update.numFree := by
  have := f.length_eq
  rw [numFree_update]
  unfold numFree
  omega

theorem numAvailable_le_update (f : ScFifo α size) : f.numAvailable ≤ f.update.numAvailable := by
  have := f.length_eq
  rw [numAvailable_update]
  unfold numAvailable
  omega

theorem numFree_update_of_numRead (h : f.numRead = 0) : f.update.numFree = f.numFree := by
  have := f.length_eq
  rw [numFree_update]
  unfold numFree
  omega

theorem update_eq_self (hr : f.numRead = 0) (hw : f.numWritten = 0) : f.update = f := by
  have hlen := f.length_eq
  cases f
  simp only at hr hw hlen
  subst hr hw
  simpa [update] using hlen

theorem drainBy_spec (n : Nat) (f : ScFifo α size) :
    (drainBy n f).contents = f.contents.drop (min n f.numAvailable) ∧
    (drainBy n f).numReadable = f.numReadable ∧ (drainBy n f).numWritten = f.numWritten ∧
    (drainBy n f).numAvailable = f.numAvailable - n := by
  induction n generalizing f with
  | zero => simp [drainBy]
  | succ n ih =>
    unfold drainBy
    split
    · rename_i h
      rw [nbRead_eq_none] at h
      simp [h]
    · rename_i a f' h
      obtain ⟨h1, h2, h3, h4⟩ := ih f'
      obtain ⟨hc, hr, hrd, hw⟩ := nbRead_eq_some h
      have hpos : f.numAvailable ≠ 0 := fun h0 => by rw [nbRead_eq_none.2 h0] at h; cases h
      have hav : f'.numAvailable = f.numAvailable - 1 := by
        unfold numAvailable
        omega
      refine ⟨?_, h2.trans hr, h3.trans hw, by omega⟩
      rw [h1, hc, hav]
      obtain ⟨k, hk⟩ := Nat.exists_eq_succ_of_ne_zero hpos
      rw [hk, Nat.succ_eq_add_one, Nat.add_sub_cancel, ← Nat.succ_eq_add_one n, ← Nat.succ_eq_add_one k,
        Nat.succ_min_succ, List.drop_succ_cons]

/-- Draining leaves the words written in this delta cycle, and the free count. -/
theorem drain_spec (f : ScFifo α size) : f.drain.contents = f.contents.drop f.numAvailable ∧
    f.drain.contents.length = f.numWritten ∧ f.drain.numAvailable = 0 ∧
    f.drain.numWritten = f.numWritten ∧ f.drain.numFree = f.numFree := by
  obtain ⟨h1, h2, h3, h4⟩ := drainBy_spec f.numAvailable f
  have hl := f.length_eq
  have hr := f.read_le
  rw [Nat.min_self] at h1
  refine ⟨h1, ?_, by rw [drain, h4, Nat.sub_self], h3, by rw [numFree, numFree, drain, h2, h3]⟩
  rw [drain, h1, List.length_drop, numAvailable]
  omega

theorem numReadable_drain (f : ScFifo α size) : f.drain.numReadable = f.numReadable := (drainBy_spec _ f).2.1

theorem drain_of_numAvailable (h : f.numAvailable = 0) : f.drain = f := by
  rw [drain, h]
  rfl

theorem numRead_drain (h : f.numAvailable ≠ 0) : f.drain.numRead ≠ 0 := by
  have h0 := f.drain_spec.2.2.1
  have hr := f.numReadable_drain
  unfold numAvailable at h h0
  omega

/-- Once all words have been read, the update changes whether all or whether none of the places are free iff it
leaves the FIFO empty or finds it with no place free. -/
theorem numFree_update_iff (h : f.numAvailable = 0) (hr : f.numRead ≠ 0) :
    (f.numFree = size ↔ f.update.numFree = size) ∧ (f.numFree = 0 ↔ f.update.numFree = 0) ↔
      ¬ (f.numWritten = 0 ∨ f.numFree = 0) := by
  have hsize := f.le_size
  have hread : f.numRead = f.numReadable := Nat.le_antisymm f.read_le (Nat.sub_eq_zero_iff_le.1 h)
  have hlen : f.contents.length = f.numWritten := by
    have := f.length_eq
    omega
  have hfull : f.numFree ≠ size := by
    unfold numFree
    omega
  have hzero : size - f.numWritten ≠ 0 := by omega
  have hempty : size - f.numWritten = size ↔ f.numWritten = 0 := by omega
  rw [numFree_update, hlen, iff_false_left hfull, iff_false_right hzero, hempty, not_or]

end ScFifo
