import CdcVp.Clint
import CdcVp.PlicRegs
import CdcVp.RiscvTlm

/-!
# The interrupt controllers on the edge backend

The PLIC and the CLINT driving one `riscv_tlm_cpu`, in any interleaving. `drives` is the call of `set_irq`
that an operation makes, read off the state before it. An injection is surplus when the call repeats a high
level (`Redrives`), and those are all that keep the backend from injecting on edges.
-/

namespace CdcVp
open FlatStore LittleEndian Runs RiscvTlmCpu

namespace Clint
variable {c c' : Clint} {op : Op} {o : List Event}

def Op.isAdvance : Op → Bool
  | .advance _ => true
  | _ => false

/-- The call of `set_irq` an operation makes. -/
def drives (c : Clint) : Op → Option IrqCall
  | .transport t _ =>
    match t.dataPtr with
    | none => none
    | some ptr =>
      if t.command ≠ .read ∧ t.address = kRegMsip ∧ t.dataLength = 4 then
        some ⟨kCauseSoftware, UInt32.ofNat (value (ptr.take 4)) &&& 1 ≠ 0⟩
      else none
  | .wake => some ⟨kCauseTimer, c.Fired⟩
  | _ => none

theorem drives_of_not_msip {t : Payload} (h : ¬ WritesMsip t) (d : Nat) : c.drives (.transport t d) = none := by
  cases hp : t.dataPtr with
  | none => simp only [drives, hp]
  | some ptr =>
    simp only [drives, hp]
    exact if_neg fun hw => h ⟨hw.1, by simp [hp], hw.2⟩

/-- An operation makes the call, or does not drive the CPU. -/
theorem step_drives (h : machine c op = some (c', o)) :
    (∃ k, c.drives op = some k ∧ k.cause ≠ Plic.kCauseExternal ∧ c'.cpu = c.cpu.setIrq k.cause k.level) ∨
      (c.drives op = none ∧ c'.cpu = c.cpu) := by
  rcases step_cases h with ⟨t, d, r, rfl, hr, rfl, -⟩ | ⟨rfl, -, rfl, -⟩ | ⟨rfl, -, rfl, -⟩ |
    ⟨rfl, -, -, rfl, -⟩ | ⟨time, rfl, -, -, -, rfl, -⟩ | ⟨rfl, -, -, rfl, -⟩
  · rcases bTransport_inv hr with ⟨-, hno, hc⟩ | ⟨-, hw, ptr, hp, hc⟩ | ⟨-, hno, v, hc⟩
    · exact .inr ⟨drives_of_not_msip hno d, by rw [hc]⟩
    · refine .inl ⟨⟨kCauseSoftware, UInt32.ofNat (value (ptr.take 4)) &&& 1 ≠ 0⟩, ?_,
        by simp [kCauseSoftware, Plic.kCauseExternal], by rw [hc]⟩
      simp only [drives, hp]
      exact if_pos ⟨hw.1, hw.2.2⟩
    · exact .inr ⟨drives_of_not_msip hno d, by rw [hc]⟩
  · exact .inr ⟨rfl, rfl⟩
  · exact .inl ⟨⟨kCauseTimer, c.Fired⟩, rfl, by simp [kCauseTimer, Plic.kCauseExternal], c.timerTurn_cpu⟩
  · exact .inr ⟨rfl, rfl⟩
  · exact .inr ⟨rfl, rfl⟩
  · exact .inr ⟨rfl, rfl⟩

end Clint

namespace Plic
variable {n : Nat} {p p' : Plic n} {op : Op n} {o : List Event}

def drives (p : Plic n) (op : Op n) : Option IrqCall :=
  (p.evaluates op).map fun q => ⟨kCauseExternal, (List.range' 1 n).any q.eligible⟩

theorem step_drives (h : machine n p op = some (p', o)) :
    (∃ k, p.drives op = some k ∧ k.cause = kCauseExternal ∧ p'.cpu = p.cpu.setIrq k.cause k.level) ∨
      (p.drives op = none ∧ p'.cpu = p.cpu) := by
  rcases step_cases h with ⟨q, hq, rfl, hcpu⟩ | ⟨hq, hcpu, -⟩
  · refine .inl ⟨⟨kCauseExternal, (List.range' 1 n).any q.eligible⟩, by rw [drives, hq]; rfl, rfl, ?_⟩
    rw [← hcpu]
    rfl
  · exact .inr ⟨by rw [drives, hq]; rfl, hcpu⟩

end Plic

/-- The calls made since `c` was `c₀`. -/
def IrqPort.since (c c₀ : IrqPort) : List IrqCall := c.calls.drop c₀.calls.length

@[simp] theorem IrqPort.since_self (c : IrqPort) : c.since c = [] := List.drop_length

@[simp] theorem IrqPort.since_setIrq (c : IrqPort) (cause : Nat) (level : Bool) :
    (c.setIrq cause level).since c = [⟨cause, level⟩] := List.drop_left

/-- The two controllers on one CPU. -/
structure Soc (n : Nat) where
  plic : Plic n
  clint : Clint
  cpu : RiscvTlmCpu

namespace Soc

inductive Op (n : Nat)
  | plic (op : Plic.Op n)
  | clint (op : Clint.Op)

variable {n : Nat}

def new (irqIn : Vector Bool n) : Soc n := ⟨Plic.new irqIn, Clint.new, {}⟩

/-- Every call that a controller makes reaches the CPU; what is observed are the calls. Time does not advance
while `on_sources` is due. -/
def machine (n : Nat) : Machine (Soc n) (Op n) IrqCall := fun s op =>
  match op with
  | .plic op => (Plic.machine n s.plic op).map fun r =>
      let calls := r.1.cpu.since s.plic.cpu
      (⟨r.1, s.clint, s.cpu.drive calls⟩, calls)
  | .clint op =>
    if op.isAdvance ∧ s.plic.onSourcesReady then none
    else (Clint.machine s.clint op).map fun r =>
      let calls := r.1.cpu.since s.clint.cpu
      (⟨s.plic, r.1, s.cpu.drive calls⟩, calls)

def drives (s : Soc n) : Op n → Option IrqCall
  | .plic op => s.plic.drives op
  | .clint op => s.clint.drives op

/-- The level last driven on a cause by the controller that owns it. -/
def level (s : Soc n) (cause : Nat) : Bool :=
  if cause = Plic.kCauseExternal then s.plic.cpu.level cause else s.clint.cpu.level cause

/-- The operation drives a cause high that is high already. -/
def Redrives (s : Soc n) (cause : Nat) (op : Op n) : Prop :=
  s.drives op = some ⟨cause, true⟩ ∧ s.level cause = true

/-- The CPU has taken the calls `os`, and the controllers agree with them on the levels. -/
structure Follows (os : List IrqCall) (s : Soc n) : Prop where
  cpu : s.cpu = after os
  level (cause : Nat) : s.level cause = (IrqPort.mk os).level cause

section
variable {s s' : Soc n} {op : Op n} {o os : List IrqCall} {cause : Nat}

theorem follows_new (irqIn : Vector Bool n) : Follows [] (new irqIn) := by
  refine ⟨rfl, ?_⟩
  intro cause
  simp [level, new, Plic.new, Clint.new, IrqPort.level]

theorem level_setIrq (c : IrqPort) (k : IrqCall) (cause : Nat) :
    (c.setIrq k.cause k.level).level cause = if k.cause = cause then k.level else c.level cause :=
  level_snoc c.calls k cause

theorem Follows.snoc {k : IrqCall} (hf : Follows os s) (hcpu : s'.cpu = s.cpu.drive [k])
    (hl : ∀ cause, s'.level cause = if k.cause = cause then k.level else s.level cause) :
    Follows (os ++ [k]) s' := by
  refine ⟨?_, ?_⟩
  · rw [hcpu, hf.cpu, after, after, drive_append]
  · intro cause
    rw [level_snoc, ← hf.level, hl]

/-- The CPU takes what the operation drives, and the levels stay in step. -/
theorem Follows.step (h : machine n s op = some (s', o)) (hf : Follows os s) :
    o = (s.drives op).toList ∧ Follows (os ++ o) s' := by
  cases op with
  | plic op =>
    obtain ⟨⟨p, ev⟩, hp, heq⟩ := Option.map_eq_some_iff.1 h
    cases heq
    rcases Plic.step_drives hp with ⟨k, hk, hcause, hcpu⟩ | ⟨hk, hcpu⟩
    · have hcalls : p.cpu.since s.plic.cpu = [k] := by rw [hcpu, IrqPort.since_setIrq]
      rw [hcalls]
      refine ⟨by rw [drives, hk]; rfl, hf.snoc rfl ?_⟩
      intro cause
      by_cases hc : cause = Plic.kCauseExternal
      · rw [Soc.level, Soc.level, if_pos hc, if_pos hc, hcpu, level_setIrq]
      · rw [Soc.level, Soc.level, if_neg hc, if_neg hc, if_neg (fun h => hc (h.symm.trans hcause))]
    · have hcalls : p.cpu.since s.plic.cpu = [] := by rw [hcpu, IrqPort.since_self]
      rw [hcalls, List.append_nil]
      refine ⟨by rw [drives, hk]; rfl, hf.cpu, ?_⟩
      intro cause
      rw [← hf.level, Soc.level, Soc.level]
      simp only [hcpu]
  | clint op =>
    simp only [machine] at h
    split at h
    · cases h
    obtain ⟨⟨c, ev⟩, hp, heq⟩ := Option.map_eq_some_iff.1 h
    cases heq
    rcases Clint.step_drives hp with ⟨k, hk, hcause, hcpu⟩ | ⟨hk, hcpu⟩
    · have hcalls : c.cpu.since s.clint.cpu = [k] := by rw [hcpu, IrqPort.since_setIrq]
      rw [hcalls]
      refine ⟨by rw [drives, hk]; rfl, hf.snoc rfl ?_⟩
      intro cause
      by_cases hc : cause = Plic.kCauseExternal
      · rw [Soc.level, Soc.level, if_pos hc, if_pos hc, if_neg (fun h => hcause (h.trans hc))]
      · rw [Soc.level, Soc.level, if_neg hc, if_neg hc, hcpu, level_setIrq]
    · have hcalls : c.cpu.since s.clint.cpu = [] := by rw [hcpu, IrqPort.since_self]
      rw [hcalls, List.append_nil]
      refine ⟨by rw [drives, hk]; rfl, hf.cpu, ?_⟩
      intro cause
      rw [← hf.level, Soc.level, Soc.level]
      simp only [hcpu]

/-- A call repeats a high level iff its operation redrives the cause. -/
theorem setsFresh_run {is : List (Op n)} {tr : List (Step (Soc n) (Op n) IrqCall)} {irqIn : Vector Bool n}
    (h : Run (traced (machine n)) (new irqIn) is tr s) (cause : Nat) : Follows (tr.flatMap Step.obs) s ∧
      (SetsFresh (Raises cause) (Lowers cause) (tr.flatMap Step.obs) ↔
        ∀ e ∈ tr, ¬ e.pre.Redrives cause e.input) := by
  refine h.trace (fun tr s => Follows (tr.flatMap Step.obs) s ∧
    (SetsFresh (Raises cause) (Lowers cause) (tr.flatMap Step.obs) ↔
      ∀ e ∈ tr, ¬ e.pre.Redrives cause e.input)) ⟨follows_new irqIn, iff_of_true .nil (by simp)⟩ ?_
  rintro tr a i b o hstep ⟨hf, hiff⟩
  obtain ⟨ho, hf'⟩ := hf.step hstep
  rw [List.flatMap_append, List.flatMap_singleton, List.forall_mem_append, List.forall_mem_singleton]
  refine ⟨hf', ?_⟩
  dsimp only
  cases hd : a.drives i with
  | none =>
    rw [hd] at ho
    obtain rfl : o = [] := ho
    rw [List.append_nil, hiff]
    have hno : ¬ a.Redrives cause i := by
      rintro ⟨hr, -⟩
      rw [hd] at hr
      cases hr
    exact (and_iff_left hno).symm
  | some k =>
    rw [hd] at ho
    obtain rfl : o = [k] := ho
    rw [setsFresh_snoc, hiff, ← level_iff_latched, ← hf.level, Redrives, hd]
    refine and_congr_right fun _ => ?_
    rw [not_and, Raises, Option.some.injEq]
    obtain ⟨c, l⟩ := k
    simp only [IrqCall.mk.injEq]

end

end Soc

open Soc

/-- The edge backend. The CPU has taken the calls that the controllers made, and an injection of a cause came
with each call that took its level from low to high and with no other iff no operation drove the cause high
while it was high. -/
theorem riscv_tlm_edges_iff (n : Nat) (irqIn : Vector Bool n) (is : List (Soc.Op n))
    (tr : List (Step (Soc n) (Soc.Op n) IrqCall)) (s : Soc n)
    (hrun : Run (traced (Soc.machine n)) (Soc.new irqIn) is tr s) (cause : Nat) :
    let calls := tr.flatMap Step.obs
    s.cpu = after calls ∧ (EdgeDriven cause calls ↔ ∀ e ∈ tr, ¬ e.pre.Redrives cause e.input) := by
  obtain ⟨hf, hiff⟩ := setsFresh_run hrun cause
  exact ⟨hf.cpu, edgeDriven_iff.trans hiff⟩

/-- Source 1 is raised, and a write of the threshold drives MEIP again. -/
def redriven : List (Soc.Op 1) :=
  [.plic (.transport ⟨.write, 4, some [3, 0, 0, 0], 4, .incomplete, false⟩ 0),
    .plic (.transport ⟨.write, Plic.kEnable, some [2, 0, 0, 0], 4, .incomplete, false⟩ 0),
    .plic (.lines (Vector.replicate 1 true)), .plic .onSources,
    .plic (.transport ⟨.write, Plic.kThreshold, some [0, 0, 0, 0], 4, .incomplete, false⟩ 0)]

theorem run_redriven : ∃ tr s, Run (traced (Soc.machine 1)) (Soc.new (Vector.replicate 1 false)) redriven tr s ∧
    tr.flatMap Step.obs = [⟨11, false⟩, ⟨11, false⟩, ⟨11, true⟩, ⟨11, true⟩] := by
  have hobs : (exec (Soc.machine 1) (Soc.new (Vector.replicate 1 false)) redriven).map Prod.snd =
      some [⟨11, false⟩, ⟨11, false⟩, ⟨11, true⟩, ⟨11, true⟩] := by decide +kernel
  obtain ⟨⟨s, os⟩, hx, rfl⟩ := Option.map_eq_some_iff.1 hobs
  obtain ⟨tr, htr, hos⟩ := (Run.of_exec hx).exists_traced
  exact ⟨tr, s, htr, hos⟩

theorem riscv_tlm_edges_iff_redriven : ∃ tr s,
    Run (traced (Soc.machine 1)) (Soc.new (Vector.replicate 1 false)) redriven tr s ∧
    (EdgeDriven 11 (tr.flatMap Step.obs) ↔ ∀ e ∈ tr, ¬ e.pre.Redrives 11 e.input) := by
  obtain ⟨tr, s, hrun, -⟩ := run_redriven
  exact ⟨tr, s, hrun, (riscv_tlm_edges_iff 1 _ redriven tr s hrun 11).2⟩

/-- The write injects a second time although MEIP has not fallen. -/
theorem not_edgeDriven_redriven : ¬ ∀ (n : Nat) (irqIn : Vector Bool n) (is : List (Soc.Op n))
    (tr : List (Step (Soc n) (Soc.Op n) IrqCall)) (s : Soc n) (cause : Nat),
    Run (traced (Soc.machine n)) (Soc.new irqIn) is tr s → cause = 3 ∨ cause = 7 ∨ cause = 11 →
      EdgeDriven cause (tr.flatMap Step.obs) := by
  intro h
  obtain ⟨tr, s, hrun, hobs⟩ := run_redriven
  have hedge := h 1 _ redriven tr s 11 hrun (by decide)
  rw [hobs] at hedge
  have hlast := hedge [⟨11, false⟩, ⟨11, false⟩, ⟨11, true⟩] ⟨11, true⟩ [] rfl rfl
  revert hlast
  decide

end CdcVp
