import CdcVp.PlicRegs

/-!
# The PLIC's interrupt level

MEIP is a cached function of the lines, the enable word, the priorities, the threshold and the claimed
flags. `Fresh` says the cache is right whenever `on_sources` is not due; `fresh_step` that every
operation that changes any of the five re-evaluates it.
-/

namespace CdcVp
open FlatStore LittleEndian Runs

namespace Plic
variable {n : Nat} {p p' : Plic n} {op : Op n} {o : List Event}

/-- Unless a line change still has to be looked at, MEIP says whether some source is eligible. -/
def Fresh (p : Plic n) : Prop :=
  p.onSourcesReady = false → (p.cpu.level kCauseExternal = true ↔ p.AnyEligible)

theorem fresh_updateMeip (p : Plic n) : p.updateMeip.Fresh := fun _ => level_updateMeip

theorem fresh_new (irqIn : Vector Bool n) : (new irqIn).Fresh := by
  intro _
  refine iff_of_false (by simp [new, IrqPort.level]) ?_
  rintro ⟨id, hid⟩
  obtain ⟨-, -, he, -⟩ := eligible_iff.1 hid
  simp [new, enabled] at he

theorem fresh_step (h : machine n p op = some (p', o)) (hf : p.Fresh) : p'.Fresh := by
  rcases machine_cases h with ⟨t, d, rfl, rfl, -⟩ | ⟨irqIn, rfl, rfl, -⟩ | ⟨rfl, -, rfl, -⟩
  · rw [bTransport_fst]
    cases p.evaluates (.transport t d) with
    | none => exact hf
    | some q => exact fresh_updateMeip q
  · intro hr
    obtain ⟨hdue, rfl⟩ : p.onSourcesReady = false ∧ irqIn = p.irqIn := by simpa using hr
    exact hf hdue
  · exact fresh_updateMeip _

theorem fresh_run {irqIn : Vector Bool n} {is : List (Op n)} {os : List Event}
    (h : Run (machine n) (new irqIn) is os p) : p.Fresh :=
  h.inv Fresh (fresh_new irqIn) fun _ _ _ _ => fresh_step

end Plic

open Plic

/-- In every reachable state in which every line change has been followed by `on_sources`, the level last
driven on cause 11, a claim read and the registers say the same: whether some source is eligible. -/
theorem plic_level (n : Nat) (hn : n ≤ 31) (irqIn : Vector Bool n) (is : List (Op n)) (os : List Event)
    (p : Plic n) (hrun : Run (machine n) (Plic.new irqIn) is os p) (hdue : p.onSourcesReady = false)
    (buf : List UInt8) (hbuf : buf.length = 4) (delay : Nat) :
    let out := (p.bTransport ⟨.read, kClaim, some buf, 4, .incomplete, false⟩ delay).2.1
    out.responseStatus = .ok ∧
    (p.cpu.level 11 = true ↔ value (out.dataPtr.getD []) ≠ 0) ∧
    (p.cpu.level 11 = true ↔ ∃ id, (1 ≤ id ∧ id ≤ n) ∧ p.line id = true ∧
      p.enable.toNat.testBit id = true ∧ p.threshold < p.priorityOf id ∧ p.isClaimed id = false) := by
  intro out
  have hlevel : p.cpu.level 11 = true ↔ p.AnyEligible := fresh_run hrun hdue
  obtain ⟨hok, hval⟩ : out.responseStatus = .ok ∧ value (out.dataPtr.getD []) = p.best := by
    have hout : out = _ := congrArg (fun r => r.2.1) (bTransport_claim (t :=
      ⟨.read, kClaim, some buf, 4, .incomplete, false⟩) hn ⟨rfl, hbuf⟩ rfl rfl rfl p delay)
    rw [hout]
    exact ⟨rfl, value_bytes_of_lt (best_lt hn p)⟩
  refine ⟨hok, ?_, ?_⟩
  · rw [hval, hlevel]
    rcases p.best_cases with ⟨h0, hno⟩ | ⟨hne, -, he⟩
    · exact iff_of_false hno (not_not.2 h0)
    · exact iff_of_true ⟨_, he⟩ hne
  · rw [hlevel]
    refine exists_congr ?_
    intro id
    rw [eligible_iff]
    constructor
    · rintro ⟨hid, hl, hen, hcl, hp⟩
      exact ⟨hid, hl, (enabled_iff (by omega)).1 hen, hp, hcl⟩
    · rintro ⟨hid, hl, hen, hp, hcl⟩
      exact ⟨hid, hl, (enabled_iff (by omega)).2 hen, hcl, hp⟩

def raised : List (Op 1) :=
  [.transport ⟨.write, 4, some [3, 0, 0, 0], 4, .incomplete, false⟩ 0,
    .transport ⟨.write, kEnable, some [2, 0, 0, 0], 4, .incomplete, false⟩ 0,
    .lines (Vector.replicate 1 true), .onSources]

theorem plic_level_raised : ∃ p os, Run (machine 1) (Plic.new (Vector.replicate 1 false)) raised os p ∧
    p.cpu.level 11 = true ∧ ∃ id, (1 ≤ id ∧ id ≤ 1) ∧ p.line id = true ∧
      p.enable.toNat.testBit id = true ∧ p.threshold < p.priorityOf id ∧ p.isClaimed id = false := by
  have hdue : (exec (machine 1) (Plic.new (Vector.replicate 1 false)) raised).map
      (fun r => (r.1.onSourcesReady, r.1.cpu.level 11)) = some (false, true) := by decide +kernel
  obtain ⟨⟨p, os⟩, hx, hr⟩ := Option.map_eq_some_iff.1 hdue
  obtain ⟨hready, hlevel⟩ := Prod.mk.inj hr
  have hrun := Run.of_exec hx
  have hiff := plic_level 1 (by omega) _ raised os p hrun hready [0, 0, 0, 0] rfl 0
  exact ⟨p, os, hrun, hlevel, hiff.2.2.1 hlevel⟩

end CdcVp
