import CdcVp.PlicGateway
import CdcVp.PlicRegs
import Mathlib.Data.List.Sort

/-!
# Draining the PLIC

A `Ranking` lists the eligible sources in the order of their priorities, ties by id. A claim read takes the head
of the ranking and leaves the rest of it (`Ranking.claim`), so a sequence of claim reads walks down the list.
-/

namespace CdcVp
open FlatStore LittleEndian Runs

namespace Plic
variable {n : Nat} {p : Plic n} {id a b : Nat} {L : List Nat} {buf : List UInt8}

/-- Source `a` is to be served before source `b`. -/
def Before (p : Plic n) (a b : Nat) : Prop :=
  p.priorityOf b < p.priorityOf a ∨ p.priorityOf a = p.priorityOf b ∧ a < b

/-- A 4-byte read of the claim register. -/
def claimRead (buf : List UInt8) : Payload := ⟨.read, kClaim, some buf, 4, .incomplete, false⟩

/-- The claim register read again and again, each time into a buffer and with a delay of its own; the answers
are in order. -/
def claimReads (p : Plic n) : List (List UInt8 × Nat) → Plic n × List Payload
  | [] => (p, [])
  | (buf, d) :: rs =>
    let out := p.bTransport (claimRead buf) d
    let rest := claimReads out.1 rs
    (rest.1, out.2.1 :: rest.2)

/-- The eligible sources, in the order in which they are to be served. -/
structure Ranking (p : Plic n) (L : List Nat) : Prop where
  mem (id : Nat) : id ∈ L ↔ p.eligible id = true
  sorted : L.Pairwise p.Before

/-! ### One claim -/

@[simp] theorem priority_marked (p : Plic n) : p.marked.priority = p.priority := by unfold marked; split <;> rfl
@[simp] theorem enable_marked (p : Plic n) : p.marked.enable = p.enable := by unfold marked; split <;> rfl
@[simp] theorem threshold_marked (p : Plic n) : p.marked.threshold = p.threshold := by unfold marked; split <;> rfl
@[simp] theorem irqIn_marked (p : Plic n) : p.marked.irqIn = p.irqIn := by unfold marked; split <;> rfl

theorem best_spec (h : p.eligible id = true) : p.eligible p.best = true ∧
    p.priorityOf id ≤ p.priorityOf p.best ∧ (p.priorityOf id = p.priorityOf p.best → p.best ≤ id) := by
  have hid := (eligible_iff.1 h).1
  rcases best_foldl p with ⟨-, hnone⟩ | ⟨-, he, hp, hmax⟩
  · rw [hnone id (by omega)] at h
    cases h
  · obtain ⟨hle, heq⟩ := hmax id (by omega) h
    rw [hp] at hle heq
    exact ⟨he, hle, heq⟩

/-- A claim takes the best source out of the eligible ones. -/
theorem eligible_doClaim (p : Plic n) (id : Nat) :
    p.doClaim.1.eligible id = true ↔ p.eligible id = true ∧ id ≠ p.best := by
  have hline : p.doClaim.1.line id = p.line id := congrArg (fun v => (v[id - 1]?).getD false) p.irqIn_marked
  have hen : p.doClaim.1.enabled id = p.enabled id :=
    congrArg (fun v : UInt32 => decide ((v >>> UInt32.ofNat id) &&& 1 ≠ 0)) p.enable_marked
  have hprio : p.doClaim.1.priorityOf id = p.priorityOf id :=
    congrArg (fun v => (v[id]?).getD 0) p.priority_marked
  have hth : p.doClaim.1.threshold = p.threshold := p.threshold_marked
  have hcl : p.doClaim.1.isClaimed id = false ↔ p.isClaimed id = false ∧ ¬ (p.best ≠ 0 ∧ id = p.best) := by
    rw [← Bool.not_eq_true, isClaimed_doClaim, not_or, Bool.not_eq_true]
  rw [eligible_iff, eligible_iff, hline, hen, hprio, hth, hcl]
  constructor
  · rintro ⟨hid, hl, he, ⟨hc, hne⟩, hp⟩
    refine ⟨⟨hid, hl, he, hc, hp⟩, fun h => hne ⟨?_, h⟩⟩
    omega
  · rintro ⟨⟨hid, hl, he, hc, hp⟩, hne⟩
    exact ⟨hid, hl, he, ⟨hc, fun h => hne h.2⟩, hp⟩

theorem bTransport_claimRead (hn : n ≤ 31) (hbuf : buf.length = 4) (p : Plic n) (d : Nat) :
    p.bTransport (claimRead buf) d = (p.doClaim.1,
      { claimRead buf with dataPtr := some (bytes 4 p.best), responseStatus := .ok }, d + 10000) :=
  bTransport_claim hn ⟨rfl, hbuf⟩ rfl rfl rfl p d

namespace Ranking

/-- No source is listed twice. -/
theorem nodup (h : Ranking p L) : L.Nodup := by
  refine h.sorted.imp ?_
  rintro a b hab rfl
  rcases hab with hlt | ⟨-, hlt⟩
  · exact UInt32.lt_irrefl _ hlt
  · exact Nat.lt_irrefl _ hlt

theorem best_nil (h : Ranking p []) : p.best = 0 := by
  rcases p.best_cases with ⟨h0, -⟩ | ⟨-, -, he⟩
  · exact h0
  · exact absurd ((h.mem p.best).2 he) List.not_mem_nil

theorem best_cons (h : Ranking p (a :: L)) : p.best = a := by
  obtain ⟨he, hle, heq⟩ := best_spec ((h.mem a).1 List.mem_cons_self)
  rcases List.mem_cons.1 ((h.mem p.best).2 he) with hb | hb
  · exact hb
  · rcases (List.pairwise_cons.1 h.sorted).1 p.best hb with hlt | ⟨hp, hlt⟩
    · exact absurd hlt (UInt32.not_lt.2 hle)
    · exact absurd (heq hp) (Nat.not_le.2 hlt)

/-- A claim takes the head of the ranking. -/
theorem claim (h : Ranking p L) : Ranking p.doClaim.1 L.tail where
  mem id := by
    rw [eligible_doClaim, ← h.mem]
    cases L with
    | nil => simp
    | cons a L =>
      have ha : a ∉ L := (List.nodup_cons.1 h.nodup).1
      rw [h.best_cons, List.tail_cons, List.mem_cons]
      constructor
      · rintro hid
        exact ⟨.inr hid, fun heq => ha (heq ▸ hid)⟩
      · rintro ⟨hid, hne⟩
        exact hid.resolve_left hne
  sorted := by
    refine (h.sorted.sublist (List.tail_sublist L)).imp ?_
    intro a b hab
    have hprio (id : Nat) : p.doClaim.1.priorityOf id = p.priorityOf id :=
      congrArg (fun v => (v[id]?).getD 0) p.priority_marked
    rwa [Before, hprio, hprio]

theorem not_anyEligible (h : Ranking p []) : ¬ p.AnyEligible := by
  rintro ⟨id, hid⟩
  exact List.not_mem_nil ((h.mem id).2 hid)

theorem exists_ranking (p : Plic n) : ∃ L, Ranking p L := by
  classical
  let r (a b : Nat) : Prop := p.priorityOf b < p.priorityOf a ∨ p.priorityOf a = p.priorityOf b ∧ a ≤ b
  have hr (a b : Nat) : r a b ↔ (p.priorityOf b).toNat < (p.priorityOf a).toNat ∨
      (p.priorityOf a).toNat = (p.priorityOf b).toNat ∧ a ≤ b := by
    rw [UInt32.toNat_inj, ← UInt32.lt_iff_toNat_lt]
  have htotal : Std.Total r := ⟨fun a b => by rw [hr, hr]; omega⟩
  have htrans : IsTrans Nat r := ⟨fun a b c hab hbc => by rw [hr] at *; omega⟩
  let L := ((List.range' 1 n).filter fun id => p.eligible id).insertionSort r
  have hmem (id : Nat) : id ∈ L ↔ p.eligible id = true := by
    rw [List.mem_insertionSort, List.mem_filter, and_iff_right_iff_imp, List.mem_range'_1]
    intro h
    have := (eligible_iff.1 h).1
    omega
  have hnodup : L.Nodup :=
    (List.perm_insertionSort r _).nodup_iff.2 ((List.nodup_range' 1).filter _)
  refine ⟨L, hmem, ?_⟩
  refine (hnodup.and (List.pairwise_insertionSort r _)).imp ?_
  rintro a b ⟨hne, hab | ⟨hp, hle⟩⟩
  · exact .inl hab
  · exact .inr ⟨hp, Nat.lt_of_le_of_ne hle hne⟩

end Ranking

/-! ### A sequence of claims -/

theorem SameSetup.doClaim (p : Plic n) : SameSetup p p.doClaim.1 :=
  ⟨p.priority_marked, p.enable_marked, p.threshold_marked⟩

def claimedId (out : Payload) : Nat := value (out.dataPtr.getD [])

variable {reads : List (List UInt8 × Nat)}

/-- The answers of a sequence of claim reads, and the ranking and the claimed flags it leaves. -/
theorem claimReads_spec (hn : n ≤ 31) (h : Ranking p L) (hreads : ∀ r ∈ reads, r.1.length = 4) :
    (∀ t ∈ (p.claimReads reads).2, t.responseStatus = .ok) ∧
    (p.claimReads reads).2.map claimedId =
      L.take reads.length ++ List.replicate (reads.length - L.length) 0 ∧
    Ranking (p.claimReads reads).1 (L.drop reads.length) ∧ SameSetup p (p.claimReads reads).1 ∧
    ∀ id, (p.claimReads reads).1.isClaimed id = true ↔ p.isClaimed id = true ∨ id ∈ L.take reads.length := by
  induction reads generalizing p L with
  | nil => exact ⟨by simp [claimReads], by simp [claimReads], h, ⟨rfl, rfl, rfl⟩, by simp [claimReads]⟩
  | cons r rs ih =>
    obtain ⟨buf, d⟩ := r
    have ht := bTransport_claimRead hn (hreads _ List.mem_cons_self) p d
    obtain ⟨hok, hvals, hrank, hsame, hcl⟩ := ih h.claim fun r hr => hreads r (List.mem_cons_of_mem _ hr)
    have hp := best_lt hn p
    rw [claimReads, ht]
    dsimp only
    refine ⟨?_, ?_, ?_, (SameSetup.doClaim p).trans hsame, ?_⟩
    · rintro t (_ | ⟨_, ht⟩)
      · rfl
      · exact hok t ht
    · rw [List.map_cons, hvals, claimedId, Option.getD_some, value_bytes_of_lt hp]
      cases L with
      | nil =>
        rw [h.best_nil]
        simp [List.replicate_succ]
      | cons a L =>
        rw [h.best_cons]
        simp
    · cases L with
      | nil => simpa using hrank
      | cons a L => exact hrank
    · intro id
      rw [hcl, isClaimed_doClaim, or_assoc]
      refine or_congr_right ?_
      cases L with
      | nil =>
        rw [h.best_nil]
        simp
      | cons a L =>
        have ha := (eligible_iff.1 ((h.mem a).1 List.mem_cons_self)).1
        rw [h.best_cons, List.tail_cons, List.length_cons, List.take_succ_cons, List.mem_cons]
        refine or_congr_left (and_iff_right ?_)
        omega

/-- A claim read re-evaluates MEIP. -/
theorem level_claimReads (hn : n ≤ 31) (hreads : ∀ r ∈ reads, r.1.length = 4) (hne : reads ≠ [])
    (p : Plic n) : (p.claimReads reads).1.cpu.level kCauseExternal = true ↔ (p.claimReads reads).1.AnyEligible := by
  induction reads generalizing p with
  | nil => exact absurd rfl hne
  | cons r rs ih =>
    have ht := bTransport_claimRead hn (hreads _ List.mem_cons_self) p r.2
    rw [claimReads, ht]
    cases rs with
    | nil => exact level_updateMeip
    | cons r' rs => exact ih (fun r hr => hreads r (List.mem_cons_of_mem _ hr)) (List.cons_ne_nil _ _) _

end Plic

open Plic

/-- Reading the claim register again and again returns the eligible sources in decreasing priority, ties by id,
each once, and then 0; MEIP is low from the last of them on; and of the other registers only the claimed flags of
the returned sources change. -/
theorem plic_drain (n : Nat) (hn : n ≤ 31) (p : Plic n) : ∃ L : List Nat,
    (∀ id, id ∈ L ↔ p.eligible id = true) ∧ L.Pairwise p.Before ∧
    ∀ reads : List (List UInt8 × Nat), (∀ r ∈ reads, r.1.length = 4) →
      let out := p.claimReads reads
      (∀ t ∈ out.2, t.responseStatus = .ok) ∧
      out.2.map claimedId = L.take reads.length ++ List.replicate (reads.length - L.length) 0 ∧
      (L.length ≤ reads.length → reads ≠ [] → out.1.cpu.level 11 = false) ∧
      out.1.priority = p.priority ∧ out.1.enable = p.enable ∧ out.1.threshold = p.threshold ∧
      ∀ id, out.1.isClaimed id = true ↔ p.isClaimed id = true ∨ id ∈ L.take reads.length := by
  obtain ⟨L, hL⟩ := Ranking.exists_ranking p
  refine ⟨L, hL.mem, hL.sorted, ?_⟩
  intro reads hreads out
  obtain ⟨hok, hvals, hrank, hsame, hcl⟩ := claimReads_spec hn hL hreads
  refine ⟨hok, hvals, ?_, hsame.priority, hsame.enable, hsame.threshold, hcl⟩
  intro hle hne
  rw [List.drop_of_length_le hle] at hrank
  exact Bool.eq_false_iff.2 fun hl => hrank.not_anyEligible ((level_claimReads hn hreads hne p).1 hl)

/-- Three sources raised, two of them with one priority. -/
def threeRaised : Plic 3 :=
  { new (Vector.replicate 3 true) with priority := #v[0, 3, 5, 5], enable := 0xE }

theorem plic_drain_threeRaised : ∃ L : List Nat, (∀ id, id ∈ L ↔ threeRaised.eligible id = true) ∧
    L.Pairwise threeRaised.Before ∧
    (threeRaised.claimReads (List.replicate 4 ([0, 0, 0, 0], 0))).2.map claimedId =
      L.take 4 ++ List.replicate (4 - L.length) 0 := by
  obtain ⟨L, hmem, hsorted, hreads⟩ := plic_drain 3 (by decide) threeRaised
  exact ⟨L, hmem, hsorted, (hreads (List.replicate 4 ([0, 0, 0, 0], 0)) (by simp)).2.1⟩

example : (threeRaised.claimReads (List.replicate 4 ([0, 0, 0, 0], 0))).2.map claimedId = [2, 3, 1, 0] := by
  decide +kernel

end CdcVp
