import CdcVp.Plic

/-!
# The PLIC's gateway

`Gateway` ties the claimed flags to the history of claims and completes. Only `do_claim` sets a flag, and
only on a source that is not claimed; only a write of the source's own id to the claim/complete register
clears it.
-/

namespace CdcVp
open FlatStore LittleEndian Runs

namespace Plic
variable {n : Nat} {p p' : Plic n} {op : Op n} {o os : List Event} {id : Nat}

def Claims (id : Nat) (e : Event) : Prop := e = .claim id

def Completes (id : Nat) (e : Event) : Prop := ∃ w, e = .complete id w

/-- The transaction, if it is one, is a read or a write. -/
def Op.ReadOrWrite : Op n → Prop
  | .transport t _ => t.command = .read ∨ t.command = .write
  | _ => True

/-- The flag of `id` is up iff `id` was claimed and not completed since, `id` was only claimed with its flag
down, and a complete says whether it found the flag up. -/
structure Gateway (id : Nat) (os : List Event) (p : Plic n) : Prop where
  claimed : p.isClaimed id = true ↔ Latched (Claims id) (Completes id) os
  fresh : SetsFresh (Claims id) (Completes id) os
  effective : ∀ h₁ w h₂, os = h₁ ++ .complete id w :: h₂ → (w = true ↔ Latched (Claims id) (Completes id) h₁)

/-! ### The claimed flags -/

theorem isClaimed_updateMeip (p : Plic n) (id : Nat) : p.updateMeip.isClaimed id = p.isClaimed id := rfl

theorem isClaimed_of_claimed {q : Plic n} (h : q.claimed = p.claimed) (id : Nat) :
    q.isClaimed id = p.isClaimed id := by
  rw [isClaimed, isClaimed, h]

theorem isClaimed_doClaim (p : Plic n) (id : Nat) :
    p.doClaim.1.isClaimed id = true ↔ p.isClaimed id = true ∨ p.best ≠ 0 ∧ id = p.best := by
  unfold doClaim
  rcases p.best_cases with ⟨h0, -⟩ | ⟨hne, hle, -⟩
  · simp only [h0, ne_eq, not_true_eq_false, if_false, isClaimed_updateMeip, false_and, or_false]
  · simp only [hne, ne_eq, not_false_eq_true, if_true, isClaimed_updateMeip, true_and]
    by_cases hid : id = p.best
    · subst hid
      simp [isClaimed, Nat.lt_succ_of_le hle]
    · simp [isClaimed, hid, Vector.getElem?_setIfInBounds_ne (Ne.symm hid)]

theorem isClaimed_doComplete (p : Plic n) (v : UInt32) (id : Nat) :
    (p.doComplete v).isClaimed id = true ↔ p.isClaimed id = true ∧ ¬ (id = v.toNat ∧ 1 ≤ id ∧ id ≤ n) := by
  unfold doComplete
  by_cases hv : v.toNat ≥ 1 ∧ v.toNat ≤ n
  · simp only [hv, and_self, if_true, isClaimed_updateMeip]
    by_cases hid : id = v.toNat
    · subst hid
      simp [isClaimed, hv, Nat.lt_succ_of_le hv.2]
    · simp [isClaimed, hid, Vector.getElem?_setIfInBounds_ne (Ne.symm hid)]
  · simp only [hv, if_false, isClaimed_updateMeip]
    refine ⟨fun h => ⟨h, fun ⟨hid, h1, h2⟩ => hv (by omega)⟩, And.left⟩

/-! ### The history -/

namespace Gateway

theorem of_claimed (h : Gateway id os p) (he : p'.isClaimed id = p.isClaimed id) : Gateway id os p' :=
  ⟨by rw [he]; exact h.claimed, h.fresh, h.effective⟩

theorem snoc_claim {k : Nat} (h : Gateway id os p) (hfree : p.isClaimed k = false)
    (he : p'.isClaimed id = true ↔ p.isClaimed id = true ∨ id = k) : Gateway id (os ++ [.claim k]) p' where
  claimed := by
    rw [he, latched_snoc, h.claimed]
    simp only [Claims, Completes, Event.claim.injEq, reduceCtorEq, exists_false, not_false_eq_true, and_true]
    exact ⟨fun h => h.elim .inr fun h => .inl h.symm, fun h => h.elim (fun h => .inr h.symm) .inl⟩
  fresh := h.fresh.snoc fun hk hl => by
    obtain rfl : k = id := by simpa [Claims] using hk
    rw [h.claimed.2 hl] at hfree
    cases hfree
  effective h₁ w h₂ heq := by
    rcases List.eq_nil_or_concat h₂ with rfl | ⟨h₂, c, rfl⟩
    · exact absurd (List.append_inj' heq rfl).2 (by simp)
    · rw [List.concat_eq_append, ← List.cons_append, ← List.append_assoc] at heq
      exact h.effective h₁ w h₂ (List.append_inj' heq rfl).1

theorem snoc_complete {k : Nat} (h : Gateway id os p)
    (he : p'.isClaimed id = true ↔ p.isClaimed id = true ∧ id ≠ k) :
    Gateway id (os ++ [.complete k (p.isClaimed k)]) p' where
  claimed := by
    rw [he, latched_snoc, h.claimed]
    simp only [Claims, Completes, Event.complete.injEq, reduceCtorEq, false_or, exists_and_left, exists_eq',
      and_true]
    exact and_congr_right fun _ => ⟨fun hne heq => hne heq.symm, fun hne heq => hne heq.symm⟩
  fresh := h.fresh.snoc fun hk => by cases hk
  effective h₁ w h₂ heq := by
    rcases List.eq_nil_or_concat h₂ with rfl | ⟨h₂, c, rfl⟩
    · obtain ⟨rfl, hlast⟩ := List.append_inj' heq rfl
      obtain ⟨rfl, rfl⟩ : k = id ∧ p.isClaimed k = w := by simpa using hlast
      exact h.claimed
    · rw [List.concat_eq_append, ← List.cons_append, ← List.append_assoc] at heq
      exact h.effective h₁ w h₂ (List.append_inj' heq rfl).1

theorem new (irqIn : Vector Bool n) (id : Nat) : Gateway id [] (Plic.new irqIn) where
  claimed := by
    refine iff_of_false ?_ not_latched_nil
    simp [isClaimed, Plic.new, Vector.getElem?_replicate]
    split <;> simp
  fresh := .nil
  effective h₁ w h₂ heq := by simp at heq

/-- A claimed source stays claimed as long as no complete finds it so. -/
theorem latched_after (h : Gateway id os p) {h₁ h₂ : List Event} :
    ∀ h₃, os = h₁ ++ .claim id :: h₂ ++ h₃ → .complete id true ∉ h₂ →
      Latched (Claims id) (Completes id) (h₁ ++ .claim id :: h₂) := by
  induction h₂ using List.reverseRecOn with
  | nil => exact fun _ _ _ => latched_snoc.2 (.inl rfl)
  | append_singleton h₂ e ih =>
    intro h₃ heq hno
    have hprev := ih (e :: h₃) (by rw [heq]; simp) fun hm => hno (List.mem_append_left _ hm)
    rw [← List.cons_append, ← List.append_assoc]
    refine latched_snoc.2 (.inr ⟨hprev, ?_⟩)
    rintro ⟨w, rfl⟩
    have hw : w = true := (h.effective _ w h₃ (by rw [heq]; simp)).2 hprev
    exact hno (by simp [hw])

theorem step (hn : n ≤ 31) (hid : 1 ≤ id ∧ id ≤ n) (h : machine n p op = some (p', o)) (hg : Gateway id os p) :
    Gateway id (os ++ o) p' := by
  rcases machine_cases h with ⟨t, d, rfl, rfl, rfl⟩ | ⟨irqIn, rfl, rfl, rfl⟩ | ⟨rfl, -, rfl, rfl⟩
  · rcases bTransport_cases hn p t d with
      ⟨he, ho⟩ | ⟨-, -, q, he, hcl, -, ho⟩ | ⟨-, he, ho⟩ | ⟨-, -, ptr, -, he, ho⟩
    · rwa [he, ho, List.append_nil]
    · rw [he, ho, List.append_nil]
      exact hg.of_claimed ((isClaimed_updateMeip q id).trans (isClaimed_of_claimed hcl id))
    · rw [he, ho]
      rcases p.best_cases with ⟨h0, -⟩ | ⟨hne, -, hel⟩
      · rw [if_pos h0, List.append_nil]
        refine hg.of_claimed (Bool.eq_iff_iff.2 ?_)
        simp [isClaimed_doClaim, h0]
      · rw [if_neg hne]
        refine hg.snoc_claim (eligible_iff.1 hel).2.2.2.1 ?_
        rw [isClaimed_doClaim]
        simp only [hne, ne_eq, not_false_eq_true, true_and]
    · rw [he, ho]
      refine hg.snoc_complete ?_
      rw [isClaimed_doComplete]
      simp only [hid, and_self, and_true, ne_eq]
  · rw [List.append_nil]
    exact hg.of_claimed rfl
  · rw [List.append_nil]
    exact hg.of_claimed rfl

end Gateway

/-- Only a write of its own id to the claim/complete register re-opens a source. -/
theorem reopened (hn : n ≤ 31) (hcmd : op.ReadOrWrite) (h : machine n p op = some (p', o))
    (hc : p.isClaimed id = true) (hc' : p'.isClaimed id = false) :
    ∃ t d ptr, op = .transport t d ∧ t.command = .write ∧ t.address = kClaim ∧ t.dataPtr = some ptr ∧
      value (ptr.take 4) = id := by
  rcases machine_cases h with ⟨t, d, rfl, rfl, -⟩ | ⟨irqIn, rfl, rfl, -⟩ | ⟨rfl, -, rfl, -⟩
  · rcases bTransport_cases hn p t d with
      ⟨he, -⟩ | ⟨-, -, q, he, hcl, -⟩ | ⟨-, he, -⟩ | ⟨hr, ha, ptr, hptr, he, -⟩
    · rw [he, hc] at hc'
      cases hc'
    · rw [he, isClaimed_updateMeip, isClaimed_of_claimed hcl, hc] at hc'
      cases hc'
    · rw [he, (isClaimed_doClaim p id).2 (.inl hc)] at hc'
      cases hc'
    · refine ⟨t, d, ptr, rfl, hcmd.resolve_left hr, ha, hptr, ?_⟩
      by_contra hne
      have hstill := (isClaimed_doComplete p (wordOf ptr) id).2 ⟨hc, fun ⟨heq, _⟩ => hne (by
        rw [heq, toNat_wordOf])⟩
      rw [he, hstill] at hc'
      cases hc'
  · exact absurd hc (ne_true_of_eq_false hc')
  · exact absurd hc (ne_true_of_eq_false hc')

end Plic

open Plic

/-- In every run of reads, writes and line changes the claim reads that return `id` and the completes that
find it claimed alternate, beginning with a claim; `id` is claimed iff it was claimed and not completed
since; and nothing but a write of `id` to the claim/complete register re-opens it. -/
theorem plic_gateway (n : Nat) (hn : n ≤ 31) (irqIn : Vector Bool n) (is : List (Op n)) (os : List Event)
    (p : Plic n) (hrun : Run (machine n) (Plic.new irqIn) is os p) (id : Nat) (hid : 1 ≤ id ∧ id ≤ n) :
    (p.isClaimed id = true ↔ ∃ h₁ h₂, os = h₁ ++ .claim id :: h₂ ∧ ∀ w, .complete id w ∉ h₂) ∧
    (∀ h₁ h₂ h₃, os = h₁ ++ .claim id :: h₂ ++ .claim id :: h₃ → .complete id true ∈ h₂) ∧
    (∀ h₁ h₂ h₃, os = h₁ ++ .complete id true :: h₂ ++ .complete id true :: h₃ → .claim id ∈ h₂) ∧
    (∀ h₁ h₂, os = h₁ ++ .complete id true :: h₂ → .claim id ∈ h₁) ∧
    (∀ op p' o, op.ReadOrWrite → machine n p op = some (p', o) → p.isClaimed id = true →
      p'.isClaimed id = false → ∃ t d ptr, op = .transport t d ∧ t.command = .write ∧
        t.address = kClaim ∧ t.dataPtr = some ptr ∧ value (ptr.take 4) = id) := by
  have hg : Gateway id os p := hrun.history (fun _ => True) (fun _ _ => trivial) (Gateway id)
    (.new irqIn id) fun _ _ _ _ _ _ h hg => hg.step hn hid h
  refine ⟨?_, ?_, ?_, ?_, fun op p' o => reopened hn⟩
  · rw [hg.claimed]
    constructor
    · rintro ⟨h₁, e, h₂, rfl, rfl, hno⟩
      exact ⟨h₁, h₂, rfl, fun w hw => hno _ hw ⟨w, rfl⟩⟩
    · rintro ⟨h₁, h₂, rfl, hno⟩
      exact ⟨h₁, _, h₂, rfl, rfl, fun c hc ⟨w, hw⟩ => hno w (hw ▸ hc)⟩
  · intro h₁ h₂ h₃ heq
    by_contra hno
    exact hg.fresh _ _ h₃ heq rfl (hg.latched_after _ heq hno)
  · intro h₁ h₂ h₃ heq
    have hl := (hg.effective _ true h₃ heq).1 rfl
    obtain ⟨e, he, rfl⟩ := hl.set_after ⟨true, rfl⟩ (by simp [Claims])
    exact he
  · intro h₁ h₂ heq
    obtain ⟨a, e, b, rfl, rfl, -⟩ := (hg.effective _ true h₂ heq).1 rfl
    simp

/-- A source raised, claimed, completed and claimed again. -/
def reclaimed : List (Op 1) :=
  [.transport ⟨.write, 4, some [3, 0, 0, 0], 4, .incomplete, false⟩ 0,
    .transport ⟨.write, kEnable, some [2, 0, 0, 0], 4, .incomplete, false⟩ 0,
    .lines (Vector.replicate 1 true), .onSources,
    .transport ⟨.read, kClaim, some [0, 0, 0, 0], 4, .incomplete, false⟩ 0,
    .transport ⟨.write, kClaim, some [1, 0, 0, 0], 4, .incomplete, false⟩ 0,
    .transport ⟨.read, kClaim, some [0, 0, 0, 0], 4, .incomplete, false⟩ 0]

theorem plic_gateway_reclaimed : ∃ p os, Run (machine 1) (Plic.new (Vector.replicate 1 false)) reclaimed os p ∧
    os = [.claim 1, .complete 1 true, .claim 1] ∧
    (p.isClaimed 1 = true ↔ ∃ h₁ h₂, os = h₁ ++ .claim 1 :: h₂ ∧ ∀ w, .complete 1 w ∉ h₂) := by
  have hobs : (exec (machine 1) (Plic.new (Vector.replicate 1 false)) reclaimed).map Prod.snd =
      some [.claim 1, .complete 1 true, .claim 1] := by decide +kernel
  obtain ⟨⟨p, os⟩, hx, hos⟩ := Option.map_eq_some_iff.1 hobs
  have hrun := Run.of_exec hx
  exact ⟨p, os, hrun, hos, (plic_gateway 1 (by omega) _ reclaimed os p hrun 1 ⟨by omega, by omega⟩).1⟩

end CdcVp
