import CdcVp.PlicDrain
import CdcVp.SocIrqMain

/-!
# The trap of an external interrupt

A trap that is taken while MEIP is up serves the source: the claim finds it, as long as the I2C holds its line until
then. `Held` is what that asks of the trace. A line that is up after the trap is an interrupt again.
-/

namespace CdcVp
open Programs Runs

namespace Plic
variable {n : Nat} {p p' : Plic n} {op : Op n} {o : List Event}

/-- Only the lines change the lines. -/
theorem irqIn_step (h : machine n p op = some (p', o)) (hop : ∀ irqIn, op ≠ .lines irqIn) : p'.irqIn = p.irqIn := by
  rcases machine_cases h with ⟨t, d, rfl, rfl, -⟩ | ⟨irqIn, rfl, -⟩ | ⟨rfl, -, rfl, -⟩
  · rw [bTransport_fst]
    cases he : p.evaluates (.transport t d) with
    | none => rfl
    | some q =>
      obtain ⟨ptr, r, -, -, -, hq⟩ := evaluates_transport.1 he
      show q.irqIn = p.irqIn
      split at hq
      · cases r with
        | claim =>
          cases hq
          exact irqIn_marked p
        | _ => cases hq
      · cases r with
        | priority id =>
          obtain ⟨-, hq⟩ := Option.ite_none_right_eq_some.1 hq
          cases hq
          rfl
        | pending => cases hq
        | enable | threshold => cases hq; rfl
        | claim =>
          cases hq
          unfold completed
          split <;> rfl
  · exact absurd rfl (hop irqIn)
  · rfl

end Plic

namespace RiscvCustomSoc
variable {υ ι : Type*} {ip : Ip υ ι} {s s' : RiscvCustomSoc υ ι} {op : Op υ ι} {o : List Payload}

/-- The line of source 1 stays up until the I2C lowers it. -/
theorem line_step (h : machine ip s op = some (s', o)) (hop : op ≠ .i2cIrq false) (hl : s.plic.line 1 = true) :
    s'.plic.line 1 = true := by
  cases hon : (dispatch op).bind Act.toPlic with
  | none => rwa [(part_plic ip).keeps h hon]
  | some j =>
    obtain ⟨o', hj⟩ := (part_plic ip).takes j h hon
    by_cases hlines : ∃ irqIn, j = .lines irqIn
    · obtain ⟨irqIn, rfl⟩ := hlines
      rcases op with ⟨t, d⟩ | level | _ | _ | _ | _
      · obtain ⟨a, ha, haj⟩ := Option.bind_eq_some_iff.1 hon
        simp only [dispatch] at ha
        split_ifs at ha <;> cases ha <;> cases haj
      · cases level with
        | false => exact absurd rfl hop
        | true =>
          cases hon
          have hp : _ = s'.plic := congrArg Prod.fst (Option.some.inj hj)
          rw [← hp]
          rfl
      all_goals cases hon
    · have hin := Plic.irqIn_step hj fun irqIn heq => hlines ⟨irqIn, heq⟩
      rw [Plic.line, hin]
      exact hl

end RiscvCustomSoc

namespace SocIrqRiscv
open RiscvCustomSoc

section
variable {υ ι : Type*} {ip : Ip υ ι} {E : Op υ ι → Prop} {tr tr' : Trace υ ι}

/-- The I2C holds its line until source 1 is claimed. -/
def Held (tr : Trace υ ι) : Prop := ∀ e ∈ tr, e.input = .i2cIrq false → e.pre.plic.isClaimed 1 = true

instance (tr : Trace υ ι) : Decidable (Held tr) :=
  decidable_of_iff (∀ e ∈ tr, (match e.input with
    | .i2cIrq false => e.pre.plic.isClaimed 1
    | _ => true) = true) <| forall₂_congr fun e _ => by
      split
      · rename_i heq
        simp [heq]
      · rename_i hne
        exact iff_of_true rfl fun heq => absurd heq hne

/-- Source 1 is enabled, above the threshold. -/
def Enabled (p : Plic kNumPlicSources) : Prop := p.enable.toNat.testBit 1 = true ∧ p.threshold < p.priorityOf 1

theorem ofSetup_enabled : OfSetup Enabled := by
  intro p q hs h
  rw [Enabled, hs.enable, hs.threshold, Plic.priorityOf, hs.priority]
  exact h

/-- A held line stays up, while nobody sets up the PLIC. -/
theorem keeps_held (hE : ∀ op, E op → ¬ AtClaim op ∧ ¬ SetsPlic op) : Keeps (machine ip) E fun tr s =>
    Enabled s.plic ∧ (Held tr → s.plic.isClaimed 1 = false → s.plic.line 1 = true) := by
  rintro tr s op s' o hop hm ⟨hen, hl⟩
  obtain ⟨-, hflag⟩ := quiet_step hm (hE op hop).1 tr
  refine ⟨ofSetup_enabled _ _ (setup_quiet hm (hE op hop).2) hen, fun hheld hfree => ?_⟩
  rw [Held, List.forall_mem_append, List.forall_mem_singleton] at hheld
  rw [hflag] at hfree
  refine line_step hm ?_ (hl hheld.1 hfree)
  rintro rfl
  rw [hheld.2 rfl] at hfree
  cases hfree

theorem Held.of_prefix (h : Held tr') (hpre : tr <+: tr') : Held tr := fun e he => h e (hpre.subset he)

end

/-- A trap for MEIP, taken while it is up, claims and completes the source and sets `ext_done`, whatever else happens
on the platform, as long as the I2C holds its line until it is claimed. Then a line that is up has MEIP up again, once
the PLIC has run for it. Only the access to the I2C or the UART can fault, with the source left claimed. -/
theorem soc_irq_served {υ ι : Type*} (ip : Ip υ ι) (uart : υ) (i2c : ι) (is : List (Op υ ι)) (os : List Payload)
    (s s' : RiscvCustomSoc υ ι) (tr : Trace υ ι) (mcause : UInt32) (v : Vars) (r : Except Payload Vars)
    (hreach : Run (machine ip) (new uart i2c) is os s) (hdue : s.plic.onSourcesReady = false)
    (hup : s.cpu.level 11 = true) (hcause : code mcause = 11)
    (hrun : Exec (machine ip) (.inputs (machine ip) fun op => ¬ AtClaim op ∧ ¬ SetsPlic op) (trapHandler mcause v)
      () s tr r () s') (hheld : Held tr) :
    match r with
    | .ok w => w = { v with extDone := true } ∧ claims tr = [.claim 1, .complete 1 true] ∧
      s'.plic.isClaimed 1 = false ∧
      (s'.plic.onSourcesReady = false → (s'.cpu.level 11 = true ↔ s'.plic.line 1 = true))
    | .error t => (Faults i2cIicr t ∨ Faults uartTx t) ∧ claims tr = [.claim 1] ∧ s'.plic.isClaimed 1 = true := by
  obtain ⟨hl, hen, hpr, hfree⟩ := (external_level hreach hdue).1 hup
  have hone := ((trapHandler_on (ν := Unit) ip [] (fun _ h => h.1) (keeps_held fun _ h => h) mcause v).frame
    (gives_trapHandler mcause v) (keeps_setup ofSetup_enabled fun _ h => h.2)
    (keeps_setup ofSetup_enabled fun _ h => h.1)) () [] s tr r () s'
    ⟨⟨⟨rfl, hfree⟩, ⟨hen, hpr⟩, fun _ _ => hl⟩, hen, hpr⟩ hrun
  rw [List.nil_append] at hone
  have hend := hreach.append (hrun.run (Prog.gives_true _)).2.1.of_traced
  cases r with
  | error t =>
    obtain ⟨⟨h7, -⟩ | ⟨-, hf, he, hc⟩, -⟩ := hone
    · rw [hcause] at h7
      cases h7
    · exact ⟨hf, he, hc⟩
  | ok w =>
    obtain ⟨⟨hc, new, hh, he, hmiss⟩, hen', hpr'⟩ := hone
    -- a claim that finds nothing contradicts the held line
    have hno : ¬ Missed (fun tr s => Enabled s.plic ∧ (Held tr → s.plic.isClaimed 1 = false → s.plic.line 1 = true))
        tr := by
      rintro ⟨tr₁, s₁, hpre, ⟨hen₁, hl₁⟩, hfree₁, hel⟩
      exact hel ((eligible_one s₁.plic).2 ⟨hl₁ (hheld.of_prefix hpre) hfree₁, hen₁.1, hen₁.2, hfree₁⟩)
    rcases hh with h7 | h11 | ⟨was, -⟩ | ⟨-, h11⟩
    · rw [hcause] at h7
      cases h7
    · refine ⟨rfl, he, hc, fun hdue' => ?_⟩
      rw [show (11 : Nat) = Plic.kCauseExternal from rfl, external_level hend hdue']
      exact ⟨fun h => h.1, fun h => ⟨h, hen', hpr', hc⟩⟩
    · exact absurd rfl ((hmiss.resolve_right hno) was)
    · exact absurd hcause h11

/-- The I2C's interrupt, with source 1 enabled at priority 1. -/
theorem soc_irq_served_raised : ∃ (tr : Trace Unit Unit) (s s' : RiscvCustomSoc Unit Unit) (w : Vars),
    Exec (machine Ip.idle) (.inputs (machine Ip.idle) fun op => ¬ AtClaim op ∧ ¬ SetsPlic op)
      (trapHandler 0x8000000B ⟨false, false, 0x880⟩) () s tr (.ok w) () s' ∧
    w.extDone = true ∧ claims tr = [.claim 1, .complete 1 true] := by
  have hok : (exec (machine Ip.idle) (new () ()) i2cRaised).any (fun p =>
      !p.1.plic.onSourcesReady && p.1.cpu.level 11 &&
        ((trapHandler 0x8000000B ⟨false, false, 0x880⟩).alone (machine Ip.idle) p.1).any fun q =>
          decide (Held q.1) && q.2.1.isOk) = true := by
    decide +kernel
  obtain ⟨⟨s, os⟩, hs, hp⟩ := (Option.any_eq_true _ _).1 hok
  obtain ⟨hready, hany⟩ := Bool.and_eq_true_iff.1 hp
  obtain ⟨hdue, hup⟩ := Bool.and_eq_true_iff.1 hready
  obtain ⟨⟨tr, r, s'⟩, hq, hend⟩ := (Option.any_eq_true _ _).1 hany
  obtain ⟨hheld, hr⟩ := Bool.and_eq_true_iff.1 hend
  cases r with
  | error e => cases hr
  | ok w =>
    have h := Exec.of_alone (B := .inputs (machine Ip.idle) fun op => ¬ AtClaim op ∧ ¬ SetsPlic op) hq ()
    obtain ⟨hw, hcl, -⟩ := soc_irq_served Ip.idle () () _ _ s s' tr _ _ _ (.of_exec hs) (by simpa using hdue) hup
      (by decide) h (of_decide_eq_true hheld)
    exact ⟨tr, s, s', w, h, by rw [hw], hcl⟩

end SocIrqRiscv
end CdcVp
