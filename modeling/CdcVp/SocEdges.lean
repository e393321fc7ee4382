import CdcVp.RiscvVp

/-!
# The platform on the edge backend

The core of `riscv_tlm_cpu` forgets an interrupt once it has taken it, and only another injection makes it pending
again. `Due` is what the registers say of a cause. A step injects at most one cause, and one that is due (`step_call`);
what is due has been injected since it was last withdrawn.
-/

namespace CdcVp
open Runs

namespace RiscvTlmCpu

/-- The controllers' causes have different transactions. -/
theorem irqTransaction_inj {cause cause' : Nat} (hc : RiscvVpCpu.Wire cause) (hc' : RiscvVpCpu.Wire cause')
    (h : irqTransaction cause = irqTransaction cause') : cause = cause' := by
  rcases hc with rfl | rfl | rfl <;> rcases hc' with rfl | rfl | rfl <;>
    first
    | rfl
    | exact absurd h (by decide)

end RiscvTlmCpu

namespace Plic
variable {n : Nat} {p p' : Plic n} {op : Op n} {o : List Event}

/-- A call of `set_irq` drives MEIP to say whether some source is eligible. -/
theorem step_call (h : machine n p op = some (p', o)) :
    (∃ level, p'.cpu = p.cpu.setIrq kCauseExternal level ∧ (level = true ↔ p'.AnyEligible)) ∨ p'.cpu = p.cpu := by
  rcases step_cases h with ⟨q, -, rfl, hcpu⟩ | ⟨-, hcpu, -⟩
  · refine .inl ⟨(List.range' 1 n).any q.eligible, ?_, any_eligible_iff⟩
    rw [← hcpu]
    rfl
  · exact .inr hcpu

end Plic

namespace Clint
variable {c c' : Clint} {op : Op} {o : List Event}

/-- A call of `set_irq` drives MTIP to say whether the compare time is reached, or MSIP whether `msip` is set. -/
theorem step_call (h : machine c op = some (c', o)) :
    (∃ level, c'.cpu = c.cpu.setIrq kCauseTimer level ∧ (level = true ↔ c'.Fired)) ∨
    (∃ level, c'.cpu = c.cpu.setIrq kCauseSoftware level ∧ (level = true ↔ c'.msip ≠ 0)) ∨ c'.cpu = c.cpu := by
  rcases step_cases h with ⟨t, d, r, rfl, hr, rfl, -⟩ | ⟨rfl, -, rfl, -⟩ | ⟨rfl, -, rfl, -⟩ |
    ⟨rfl, -, -, rfl, -⟩ | ⟨time, rfl, -, -, -, rfl, -⟩ | ⟨rfl, -, -, rfl, -⟩
  · rcases bTransport_inv hr with ⟨-, -, he⟩ | ⟨-, -, ptr, -, he⟩ | ⟨-, -, v, he⟩
    · exact .inr (.inr (by rw [he]))
    · rw [he]
      exact .inr (.inl ⟨_, rfl, decide_eq_true_iff⟩)
    · exact .inr (.inr (by rw [he]))
  · exact .inr (.inr rfl)
  · refine .inl ⟨c.Fired, c.timerTurn_cpu, ?_⟩
    rw [decide_eq_true_eq, fired_congr c.timerTurn_mtimecmp c.timerTurn_now]
  · exact .inr (.inr rfl)
  · exact .inr (.inr rfl)
  · exact .inr (.inr rfl)

end Clint

namespace RiscvCustomSoc
variable {υ ι : Type*} {ip : Ip υ ι} {s s' : RiscvCustomSoc υ ι} {op : Op υ ι} {is : List (Op υ ι)}
  {o os : List Payload} {tr : List (Step (RiscvCustomSoc υ ι) (Op υ ι) Payload)} {uart : υ} {i2c : ι} {cause : Nat}

/-- What the registers say of a cause. -/
def Due (s : RiscvCustomSoc υ ι) (cause : Nat) : Prop :=
  match cause with
  | 3 => s.clint.msip ≠ 0
  | 7 => s.clint.mtimecmp ≠ 0 ∧ s.clint.mtimecmp.toNat ≤ s.clint.now.toNat / 10 ^ 6
  | 11 => s.plic.line 1 = true ∧ s.plic.enable.toNat.testBit 1 = true ∧
    s.plic.threshold < s.plic.priorityOf 1 ∧ s.plic.isClaimed 1 = false
  | _ => False

instance (s : RiscvCustomSoc υ ι) (cause : Nat) : Decidable (s.Due cause) := by
  unfold Due
  split <;> infer_instance

/-- The transactions sent to the core's `irq_line_socket`. -/
def injected (s : RiscvCustomSoc υ ι) : List Payload := (RiscvTlmCpu.after s.cpu.calls).injected

/-- The step injects the cause. -/
def Injects (cause : Nat) (e : Step (RiscvCustomSoc υ ι) (Op υ ι) Payload) : Prop :=
  e.post.injected = e.pre.injected ++ [RiscvTlmCpu.irqTransaction cause]

/-- The step leaves the level of the cause low, or the source of the external interrupt claimed. -/
def Withdrawn (cause : Nat) (e : Step (RiscvCustomSoc υ ι) (Op υ ι) Payload) : Prop :=
  e.post.cpu.level cause = false ∨ cause = Plic.kCauseExternal ∧ e.post.plic.isClaimed 1 = true

/-! ### One step -/

/-- A step makes at most one call, which drives whether its cause is due. -/
theorem step_call (h : machine ip s op = some (s', o)) : s'.cpu = s.cpu ∨
    ∃ k, s'.cpu = s.cpu.drive [k] ∧ RiscvVpCpu.Wire k.cause ∧ (k.level = true ↔ s'.Due k.cause) := by
  have hact := step_acts h
  generalize dispatch op = a at hact
  rcases hact with _ | _ | ⟨_, c, _, hc⟩ | ⟨_, p, _, hp⟩ | _ | _
  · exact .inl rfl
  · exact .inl rfl
  · rcases Clint.step_call hc with ⟨level, hcpu, hl⟩ | ⟨level, hcpu, hl⟩ | hcpu
    · refine .inr ⟨⟨Clint.kCauseTimer, level⟩, ?_, .inr (.inl rfl), hl⟩
      rw [withClint, hcpu, IrqPort.since_setIrq]
    · refine .inr ⟨⟨Clint.kCauseSoftware, level⟩, ?_, .inl rfl, hl⟩
      rw [withClint, hcpu, IrqPort.since_setIrq]
    · refine .inl ?_
      rw [withClint, hcpu, IrqPort.since_self]
      exact IrqPort.drive_nil _
  · rcases Plic.step_call hp with ⟨level, hcpu, hl⟩ | hcpu
    · refine .inr ⟨⟨Plic.kCauseExternal, level⟩, ?_, .inr (.inr rfl), hl.trans (eligible_one _)⟩
      rw [withPlic, hcpu, IrqPort.since_setIrq]
    · refine .inl ?_
      rw [withPlic, hcpu, IrqPort.since_self]
      exact IrqPort.drive_nil _
  · exact .inl rfl
  · exact .inl rfl

/-- A call with a high level injects its cause. -/
theorem injected_drive {k : IrqCall} (h : s'.cpu = s.cpu.drive [k]) : s'.injected =
    s.injected ++ if k.level = true then [RiscvTlmCpu.irqTransaction k.cause] else [] := by
  rw [injected, h]
  exact RiscvTlmCpu.injected_snoc s.cpu.calls k

theorem injected_congr (h : s'.cpu = s.cpu) : s'.injected = s.injected := by
  rw [injected, h, injected]

theorem not_injects (h : s'.injected = s.injected) : ¬ Injects cause ⟨s, op, s', o⟩ := by
  intro hi
  rw [Injects, h] at hi
  simp at hi

/-! ### The source of a raised MEIP -/

theorem unclaimed_step {p p' : Plic kNumPlicSources} {j : Plic.Op kNumPlicSources} {ev : List Plic.Event}
    (h : Plic.machine kNumPlicSources p j = some (p', ev))
    (hp : p.cpu.level Plic.kCauseExternal = true → p.isClaimed 1 = false) :
    p'.cpu.level Plic.kCauseExternal = true → p'.isClaimed 1 = false := by
  have hnew (q : Plic kNumPlicSources) (hl : q.updateMeip.cpu.level Plic.kCauseExternal = true) :
      q.updateMeip.isClaimed 1 = false :=
    ((eligible_one _).1 (Plic.level_updateMeip.1 hl)).2.2.2
  rcases Plic.machine_cases h with ⟨t, d, rfl, rfl, -⟩ | ⟨irqIn, rfl, rfl, -⟩ | ⟨rfl, -, rfl, -⟩
  · rw [Plic.bTransport_fst]
    cases p.evaluates (.transport t d) with
    | none => exact hp
    | some q => exact hnew q
  · exact hp
  · exact hnew _

/-- MEIP is not up while its source is claimed. -/
theorem unclaimed_run (h : Run (machine ip) (new uart i2c) is os s)
    (hl : s.cpu.level Plic.kCauseExternal = true) : s.plic.isClaimed 1 = false := by
  obtain ⟨⟨ps, hp⟩, -⟩ := run_controllers h
  rw [(Wired.run h).external] at hl
  exact hp.inv (fun p => p.cpu.level Plic.kCauseExternal = true → p.isClaimed 1 = false) (fun _ => by decide)
    (fun _ _ _ _ => unclaimed_step) hl

theorem not_withdrawn (h : Run (machine ip) (new uart i2c) is os s') (hl : s'.cpu.level cause = true) :
    ¬ Withdrawn cause ⟨s, op, s', o⟩ := by
  rintro (hlow | ⟨rfl, hclaimed⟩)
  · exact Bool.noConfusion (hl.symm.trans hlow)
  · exact Bool.noConfusion ((unclaimed_run h hl).symm.trans hclaimed)

/-! ### Runs -/

/-- The level of a cause is up iff the cause was injected and not withdrawn since. -/
theorem level_iff_injected (hc : RiscvVpCpu.Wire cause) (h : Run (traced (machine ip)) (new uart i2c) is tr s) :
    s.cpu.level cause = true ↔ Latched (Injects cause) (Withdrawn cause) tr := by
  induction h with
  | nil => exact iff_of_false (fun h => nomatch h) not_latched_nil
  | @snoc is tr a i b o hrun hi ih =>
    obtain ⟨⟨b, o⟩, hb, heq⟩ := Option.map_eq_some_iff.1 hi
    cases heq
    have hwd (hl : b.cpu.level cause = true) : ¬ Withdrawn cause ⟨a, i, b, o⟩ :=
      not_withdrawn (.snoc hrun.of_traced hb) hl
    -- a step that does not inject the cause and leaves its level
    have hkeep (hno : ¬ Injects cause ⟨a, i, b, o⟩) (hl : b.cpu.level cause = a.cpu.level cause) :
        b.cpu.level cause = true ↔ Latched (Injects cause) (Withdrawn cause) (tr ++ [⟨a, i, b, o⟩]) := by
      rw [latched_snoc, or_iff_right hno, ← ih, ← hl]
      exact ⟨fun h => ⟨h, hwd h⟩, And.left⟩
    rcases step_call hb with hcpu | ⟨k, hcpu, hk, -⟩
    · exact hkeep (not_injects (injected_congr hcpu)) (by rw [hcpu])
    have hlevel : b.cpu.level cause = if k.cause = cause then k.level else a.cpu.level cause := by
      rw [hcpu, IrqPort.level_drive_single]
    have hinj := injected_drive hcpu
    by_cases hkc : k.cause = cause
    · subst hkc
      rw [if_pos rfl] at hlevel
      cases hkl : k.level with
      | true =>
        rw [hkl, if_pos rfl] at hinj
        exact iff_of_true (hlevel.trans hkl) (latched_snoc.2 (.inl hinj))
      | false =>
        rw [hkl, if_neg Bool.false_ne_true, List.append_nil] at hinj
        have hlow := hlevel.trans hkl
        exact iff_of_false (Bool.eq_false_iff.1 hlow) (not_latched_of_clears (not_injects hinj) (.inl hlow))
    · rw [if_neg hkc] at hlevel
      refine hkeep (fun hi => ?_) hlevel
      rw [Injects, hinj, List.append_cancel_left_eq] at hi
      cases hkl : k.level with
      | true =>
        rw [hkl, if_pos rfl, List.singleton_inj] at hi
        exact hkc (RiscvTlmCpu.irqTransaction_inj hk hc hi)
      | false =>
        rw [hkl, if_neg Bool.false_ne_true] at hi
        cases hi

theorem level_iff_due (h : Run (machine ip) (new uart i2c) is os s) (hset : Settled s) (hc : RiscvVpCpu.Wire cause) :
    s.cpu.level cause = true ↔ s.Due cause := by
  rcases hc with rfl | rfl | rfl
  · exact software_level h
  · exact timer_level h hset.clint
  · exact external_level h hset.plic

end RiscvCustomSoc

open RiscvCustomSoc

/-- The platform on the edge backend. Over any run, a step injects nothing or one cause, which its registers then say
is due. In every reachable state in which the controllers have nothing left to do, a cause is due iff it was injected
and has not been withdrawn since: its level has not been low, and the source of the external interrupt has not been
claimed. -/
theorem riscv_tlm_injected {υ ι : Type*} (ip : Ip υ ι) (uart : υ) (i2c : ι) (is : List (Op υ ι))
    (tr : List (Step (RiscvCustomSoc υ ι) (Op υ ι) Payload)) (s : RiscvCustomSoc υ ι)
    (hrun : Run (traced (machine ip)) (new uart i2c) is tr s) :
    (∀ e ∈ tr, e.post.injected = e.pre.injected ∨
      ∃ cause, RiscvVpCpu.Wire cause ∧ Injects cause e ∧ e.post.Due cause) ∧
    (Settled s → ∀ cause, RiscvVpCpu.Wire cause →
      (s.Due cause ↔ Latched (Injects cause) (Withdrawn cause) tr)) := by
  refine ⟨?_, ?_⟩
  · intro e he
    rcases step_call (hrun.step_of_mem he) with hcpu | ⟨k, hcpu, hk, hl⟩
    · exact .inl (injected_congr hcpu)
    have hinj := injected_drive hcpu
    cases hkl : k.level with
    | true =>
      rw [hkl, if_pos rfl] at hinj
      exact .inr ⟨k.cause, hk, hinj, hl.1 hkl⟩
    | false =>
      rw [hkl, if_neg Bool.false_ne_true, List.append_nil] at hinj
      exact .inl hinj
  · intro hset cause hc
    rw [← level_iff_due hrun.of_traced hset hc]
    exact level_iff_injected hc hrun

/-- The I2C's interrupt, with source 1 enabled at priority 1. -/
theorem riscv_tlm_injected_raised : ∃ (is : List (Op Unit Unit))
    (tr : List (Step (RiscvCustomSoc Unit Unit) (Op Unit Unit) Payload)) (s : RiscvCustomSoc Unit Unit),
    Run (traced (machine Ip.idle)) (new () ()) is tr s ∧ Latched (Injects 11) (Withdrawn 11) tr := by
  have hok : (exec (traced (machine Ip.idle)) (new () ()) [
      .transport ⟨.write, 0x0C000004, some [1, 0, 0, 0], 4, .incomplete, false⟩ 0,
      .transport ⟨.write, 0x0C002000, some [2, 0, 0, 0], 4, .incomplete, false⟩ 0,
      .i2cIrq true, .onSources, .kernel .start]).any (fun r => decide (Settled r.1) &&
        decide (r.1.Due 11)) = true := by
    decide +kernel
  obtain ⟨⟨s, tr⟩, hs, hr⟩ := (Option.any_eq_true _ _).1 hok
  obtain ⟨hset, hup⟩ := Bool.and_eq_true_iff.1 hr
  exact ⟨_, tr, s, .of_exec hs, ((riscv_tlm_injected Ip.idle () () _ tr s (.of_exec hs)).2 (of_decide_eq_true hset) 11
    (.inr (.inr rfl))).1 (of_decide_eq_true hup)⟩

end CdcVp
