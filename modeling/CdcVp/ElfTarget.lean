import CdcVp.ElfSafety
import CdcVp.FlatStore

/-!
# Loading into any target

`sent b n` is what the first `n` headers hand to the target. `loadElf_rule` is the loader's rule: an invariant of
the target and of what was sent so far, carried by each debug write that the target counts in full, holds when
`load_elf` returns. The file may be anything.
-/

namespace CdcVp
open ExceptState FlatStore

variable {σ : Type} {b : Image}

/-- The bytes a header's segment hands to the target, at its physical address. -/
def PhdrAction.sent (b : Image) : PhdrAction → Option (Block UInt8)
  | .load addr offset filesz => some (addr, b.data (UInt64.ofNat offset) (UInt64.ofNat filesz).toUInt32)
  | _ => none

/-- What the first `n` headers hand to the target, in order. -/
def sent (b : Image) (n : Nat) : List (Block UInt8) := (List.range n).filterMap fun i => (action b i).sent b

theorem sent_succ (b : Image) (n : Nat) : sent b (n + 1) = sent b n ++ ((action b n).sent b).toList := by
  rw [sent, List.range_succ, List.filterMap_append]
  cases h : (action b n).sent b <;> simp [sent, h]

theorem length_data (b : Image) (off : UInt64) (len : UInt32) : (b.data off len).length = len.toNat := by
  simp [Image.data]

/-- A debug write of a segment's bytes. -/
theorem dbgWriteOf_rule (b : Image) {addr : Nat} (offset filesz : Nat) {sock : DbgSocket σ}
    {I : List (Block UInt8) → σ → Prop} {E : σ → Prop}
    (step : ∀ ws a t buf, I ws a → t.command = .write → t.HasBuffer buf →
      if (sock a t).2.2 = t.dataLength then I (ws ++ [(t.address.toNat, buf)]) (sock a t).1 else E (sock a t).1)
    (ws : List (Block UInt8)) (s : LoadState σ) (h : I ws s.target) (ha : addr < 2 ^ 64) :
    Ends (dbgWriteOf sock b addr offset filesz s)
      (fun _ (s' : LoadState σ) =>
        I (ws ++ [(addr, b.data (UInt64.ofNat offset) (UInt64.ofNat filesz).toUInt32)]) s'.target)
      (fun _ (s' : LoadState σ) => E s'.target) := by
  have haddr : (UInt64.ofNat addr).toNat = addr := by rw [UInt64.toNat_ofNat', Nat.mod_eq_of_lt ha]
  have hstep := step ws s.target ⟨.write, UInt64.ofNat addr,
    some (b.data (UInt64.ofNat offset) (UInt64.ofNat filesz).toUInt32), (UInt64.ofNat filesz).toUInt32,
    .incomplete, false⟩ _ h rfl ⟨rfl, length_data _ _ _⟩
  rw [dbgWriteOf, dbgWrite_run]
  dsimp only at hstep ⊢
  split
  · rename_i hn
    rw [if_pos hn, haddr] at hstep
    exact hstep
  · rename_i hn
    rw [if_neg hn] at hstep
    exact hstep

/-- One turn of the segment loop. -/
theorem turn_rule {sock : DbgSocket σ} {I : List (Block UInt8) → σ → Prop} {E : σ → Prop}
    (hE : ∀ ws a, I ws a → E a)
    (step : ∀ ws a t buf, I ws a → t.command = .write → t.HasBuffer buf →
      if (sock a t).2.2 = t.dataLength then I (ws ++ [(t.address.toNat, buf)]) (sock a t).1 else E (sock a t).1)
    (i : Nat) (a : LoadState σ) (h : (∀ j < i, ¬ (action b j).Rejects) ∧ I (sent b i) a.target) :
    Ends (turn sock b i a)
      (fun _ (s' : LoadState σ) => (∀ j < i + 1, ¬ (action b j).Rejects) ∧ I (sent b (i + 1)) s'.target)
      (fun _ (s' : LoadState σ) => E s'.target) := by
  obtain ⟨hacc, hinv⟩ := h
  obtain ⟨l, l', -, -, hspec⟩ := turn_spec sock b i a
  have hnext (ha : ¬ (action b i).Rejects) : ∀ j < i + 1, ¬ (action b j).Rejects := by
    intro j hj
    rcases Nat.lt_succ_iff_lt_or_eq.1 hj with hj | rfl
    · exact hacc j hj
    · exact ha
  cases ha : action b i with
  | unreadable =>
    rw [ha] at hspec
    obtain ⟨l'', -, he⟩ := hspec
    rw [he]
    exact hE _ _ hinv
  | exceeds =>
    rw [ha] at hspec
    rw [hspec]
    exact hE _ _ hinv
  | skip =>
    rw [ha] at hspec
    rw [hspec]
    refine ⟨hnext (by simp [ha, PhdrAction.Rejects]), ?_⟩
    have hnone : (action b i).sent b = none := by rw [ha]; rfl
    rw [sent_succ, hnone, Option.toList_none, List.append_nil]
    exact hinv
  | load addr offset filesz =>
    rw [ha] at hspec
    rw [hspec]
    obtain ⟨-, rfl, -, -⟩ := phdrAction_load_iff.1 ha
    have hsome : (action b i).sent b = some (pLoadAddr b b.is64 (phAt b i).toNat,
        b.data (UInt64.ofNat offset) (UInt64.ofNat filesz).toUInt32) := by rw [ha]; rfl
    rw [sent_succ, hsome, Option.toList_some]
    have hwrite := dbgWriteOf_rule b offset filesz step (sent b i)
      (a.logged (l ++ [Access.header i (phAt b i)] ++ l')) hinv (pLoadAddr_lt b b.is64 (phAt b i).toNat)
    exact hwrite.mono (fun _ s' hs' => ⟨hnext (by simp [ha, PhdrAction.Rejects]), hs'⟩) fun _ _ hs' => hs'

/-- The loader's rule. `I` holds of the target before with nothing sent, `step` carries it over a debug write, and
`E` holds where the loader may throw. -/
theorem loadElf_rule {sock : DbgSocket σ} (I : List (Block UInt8) → σ → Prop) (E : σ → Prop) (path : String)
    (file : Option Image) {s : LoadState σ} (h0 : I [] s.target) (hE : ∀ ws a, I ws a → E a)
    (step : ∀ ws a t buf, I ws a → t.command = .write → t.HasBuffer buf →
      if (sock a t).2.2 = t.dataLength then I (ws ++ [(t.address.toNat, buf)]) (sock a t).1
      else E (sock a t).1) :
    Ends (loadElf sock path file s)
      (fun x (s' : LoadState σ) => ∃ b, file = some b ∧ IsElf b ∧ x = UInt64.ofNat (eEntry b b.is64) ∧
        (∀ i < ePhnum b b.is64, ¬ (action b i).Rejects) ∧ I (sent b (ePhnum b b.is64)) s'.target)
      (fun _ (s' : LoadState σ) => E s'.target) := by
  cases file with
  | none => exact hE _ _ h0
  | some b =>
    by_cases helf : IsElf b
    swap
    · obtain ⟨l, e, -, he⟩ := loadElf_rejects sock path s helf
      rw [he]
      exact hE _ _ h0
    obtain ⟨l, -, he⟩ := loadElf_spec sock path s helf
    rw [he]
    have hloop : Ends ((List.range (ePhnum b b.is64)).forM (turn sock b) (s.logged l))
        (fun _ (s' : LoadState σ) => (∀ j < ePhnum b b.is64, ¬ (action b j).Rejects) ∧
          I (sent b (ePhnum b b.is64)) s'.target) (fun _ (s' : LoadState σ) => E s'.target) := by
      refine forM_range (fun i (s' : LoadState σ) => (∀ j < i, ¬ (action b j).Rejects) ∧
        I (sent b i) s'.target) _ ?_ ⟨fun _ h => absurd h (Nat.not_lt_zero _), h0⟩
      exact fun i _ a h => turn_rule hE step i a h
    exact .bind (hloop.mono (fun _ s' hs' => ⟨b, rfl, helf, rfl, hs'⟩) fun _ _ hs' => hs')

end CdcVp
