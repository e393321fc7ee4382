import CdcVp.DownCounter
import CdcVp.WatchdogMove

/-!
# How late the watchdog fires

After a write of WDOG_INTCLR the counter holds WDOG_LOAD and RIS is clear. From there `Kicked` bounds the
counter from below by the ticks that have passed, over the first timeout and up to the reset, whatever is
written, read, locked or disabled in between. `Fed` is the same bound for a watchdog that is kicked again in
time: it never times out. `OutInv` connects the outputs with the state behind them.
-/

namespace CdcVp
open FlatStore LittleEndian Runs

namespace Watchdog
variable {w w' : Watchdog} {op : Op} {o : List Obs} {tr : List (Step Watchdog Op Obs)} {L : UInt32} {n : Nat}

/-- The step is a tick: `counter_thread` comes out of `wait(m_tick_period)`. -/
def IsTick (e : Step Watchdog Op Obs) : Prop := e.input = .counterThread ∧ e.pre.counterThread = .woken

instance (e : Step Watchdog Op Obs) : Decidable (IsTick e) := by unfold IsTick; infer_instance

/-- The ticks of a history. -/
def ticks (tr : List (Step Watchdog Op Obs)) : Nat := tr.countP fun e => IsTick e

/-- The ticks of a history since the last accepted write of WDOG_INTCLR. -/
def sinceKick (tr : List (Step Watchdog Op Obs)) : Nat :=
  tr.foldl (fun n e => if .intClr ∈ e.obs then 0 else if IsTick e then n + 1 else n) 0

theorem ticks_snoc (tr : List (Step Watchdog Op Obs)) (e : Step Watchdog Op Obs) :
    ticks (tr ++ [e]) = ticks tr + if IsTick e then 1 else 0 := by
  rw [ticks, countP_snoc]
  simp only [decide_eq_true_eq]
  rfl

theorem sinceKick_snoc (tr : List (Step Watchdog Op Obs)) (e : Step Watchdog Op Obs) :
    sinceKick (tr ++ [e]) =
      if .intClr ∈ e.obs then 0 else if IsTick e then sinceKick tr + 1 else sinceKick tr := by
  rw [sinceKick, List.foldl_append]
  rfl

theorem not_ris_clearInterrupt (w : Watchdog) : ¬ w.clearInterrupt.Ris := by
  show ¬ ((0 : UInt32) &&& risAsserted ≠ 0)
  decide

theorem toNat_pred {c : UInt32} (h : c ≠ 0) : (c - 1).toNat + 1 = c.toNat := by
  have hpos : c.toNat ≠ 0 := fun h0 => h (UInt32.toNat_inj.1 h0)
  rw [DownCounter.toNat_sub_one h]
  exact Nat.succ_pred hpos

/-- `n` ticks after a write of WDOG_INTCLR, WDOG_LOAD at `L` since: before the first timeout, between the two,
or with enough ticks for a reset. -/
inductive Kicked (L : UInt32) (n : Nat) (w : Watchdog) : Prop
  | quiet (ris : ¬ w.Ris) (reset : w.resetAsserted = false) (h : L.toNat ≤ w.counter.toNat + n)
  | pending (reset : w.resetAsserted = false) (hn : L.toNat + 1 ≤ n)
      (h : 2 * L.toNat + 1 ≤ w.counter.toNat + n)
  | fired (hn : 2 * (L.toNat + 1) ≤ n)

namespace Kicked

theorem of_eq (hk : Kicked L n w) (hris : w'.ris = w.ris) (hreset : w'.resetAsserted = w.resetAsserted)
    (hc : w'.counter = w.counter) : Kicked L n w' := by
  cases hk with
  | quiet ris reset h => exact .quiet (by rwa [Ris, hris]) (hreset.trans reset) (by rwa [hc])
  | pending reset hn h => exact .pending (hreset.trans reset) hn (by rwa [hc])
  | fired hn => exact .fired hn

theorem reload (hk : Kicked L n w) (hris : w'.ris = w.ris) (hreset : w'.resetAsserted = w.resetAsserted)
    (hc : w'.counter = L) : Kicked L n w' := by
  cases hk with
  | quiet ris reset h => exact .quiet (by rwa [Ris, hris]) (hreset.trans reset) (by rw [hc]; omega)
  | pending reset hn h => exact .pending (hreset.trans reset) hn (by rw [hc]; omega)
  | fired hn => exact .fired hn

theorem clear (hk : Kicked L n w) (hl : w.load = L) : Kicked L n w.clearInterrupt := by
  cases hk with
  | quiet ris reset h | pending reset hn h =>
    refine .quiet (not_ris_clearInterrupt w) reset ?_
    show L.toNat ≤ w.load.toNat + n
    rw [hl]
    exact Nat.le_add_right _ _
  | fired hn => exact .fired hn

theorem bus (h : BusMove w w' o) (hl : w.load = L) (hl' : w'.load = L) (hk : Kicked L n w) :
    Kicked L n w' := by
  cases h with
  | ignored => exact hk
  | read | lock => exact hk.of_eq rfl rfl rfl
  | load data => exact hk.reload rfl rfl hl'
  | control data c unlocked hc =>
    rcases hc with rfl | rfl
    · exact hk.of_eq rfl rfl rfl
    · exact hk.reload rfl rfl hl
  | intClr => exact hk.clear hl

theorem tick (h : TickMove w w') (hl : w.load = L) (hk : Kicked L n w) : Kicked L (n + 1) w' := by
  cases h with
  | off h =>
    cases hk with
    | quiet ris reset h => exact .quiet ris reset (by omega)
    | pending reset hn h => exact .pending reset (by omega) (by omega)
    | fired hn => exact .fired (by omega)
  | count hne =>
    have hdec := toNat_pred hne
    cases hk with
    | quiet ris reset h => exact .quiet ris reset (by dsimp only; omega)
    | pending reset hn h => exact .pending reset (by omega) (by dsimp only; omega)
    | fired hn => exact .fired (by omega)
  | first zero ris reset =>
    cases hk with
    | quiet _ _ h | pending _ _ h =>
      rw [zero] at h
      refine .pending reset ?_ ?_
      · simp at h
        omega
      · show _ ≤ w.load.toNat + (n + 1)
        rw [hl]
        simp at h
        omega
    | fired hn => exact .fired (by omega)
  | again zero ris reset =>
    cases hk with
    | quiet hno => exact absurd ris hno
    | pending _ hn h =>
      refine .pending reset (by omega) ?_
      show _ ≤ w.load.toNat + (n + 1)
      rw [hl]
      omega
    | fired hn => exact .fired (by omega)
  | reset inten resen zero ris reset =>
    cases hk with
    | quiet hno => exact absurd ris hno
    | pending _ hn h =>
      rw [zero] at h
      simp at h
      exact .fired (by omega)
    | fired hn => exact .fired (by omega)

theorem step (h : Move w op w' o) (hl : w.load = L) (hl' : w'.load = L) (hk : Kicked L n w) :
    Kicked L (n + if IsTick ⟨w, op, w', o⟩ then 1 else 0) w' := by
  cases h with
  | bus t h =>
    rw [if_neg (by simp [IsTick]), Nat.add_zero]
    exact hk.bus h hl hl'
  | start hs =>
    rw [if_neg (by simp [IsTick, hs]), Nat.add_zero]
    exact hk.of_eq rfl rfl rfl
  | tick woken h =>
    rw [if_pos ⟨rfl, woken⟩]
    exact (hk.tick h hl).of_eq rfl rfl rfl
  | driveOutputs | delta | advance =>
    rw [if_neg (by simp [IsTick]), Nat.add_zero]
    exact hk.of_eq rfl rfl rfl

/-- The bound over a run in which WDOG_LOAD stays at `L`. -/
theorem run {is : List Op} (h : Run (traced machine) w is tr w') (hl : w.load = L)
    (hload : ∀ f ∈ tr, f.post.load = L) (hk : Kicked L 0 w) : Kicked L (ticks tr) w' := by
  have key := h.trace (fun tr a => (∀ f ∈ tr, f.post.load = L) → a.load = L ∧ Kicked L (ticks tr) a)
    (fun _ => ⟨hl, hk⟩) ?_
  · exact (key hload).2
  · intro tr a i b o hi ih hf
    obtain ⟨hla, hka⟩ := ih fun f hmem => hf f (List.mem_append_left _ hmem)
    have hlb : b.load = L := hf ⟨a, i, b, o⟩ (by simp)
    rw [ticks_snoc]
    exact ⟨hlb, hka.step (machine_move hi) hla hlb⟩

end Kicked

/-- `n` ticks after the last of the writes of WDOG_INTCLR, none of them late so far. -/
structure Fed (L : UInt32) (n : Nat) (w : Watchdog) : Prop where
  load : w.load = L
  ris : ¬ w.Ris
  reset : w.resetAsserted = false
  level : w.irqLevel = false
  counter : L.toNat ≤ w.counter.toNat + n

namespace Fed

theorem irqLevel_updateOutputs (h : ¬ w.Ris) : w.updateOutputs.irqLevel = false := by
  have hmis : w.updateOutputs.irqLevel = decide
    ((if w.ris &&& risAsserted ≠ 0 ∧ w.interruptEnabled then risAsserted else 0) &&& risAsserted ≠ 0) := rfl
  rw [hmis, if_neg fun hr => h hr.1]
  decide

theorem bus (h : BusMove w w' o) (hl : w'.load = L) (hf : Fed L n w) :
    Fed L (if .intClr ∈ o then 0 else n) w' := by
  obtain ⟨load, ris, reset, level, counter⟩ := hf
  cases h with
  | ignored => exact ⟨load, ris, reset, level, counter⟩
  | read => exact ⟨load, ris, reset, irqLevel_updateOutputs ris, counter⟩
  | lock => exact ⟨load, ris, reset, level, counter⟩
  | load data =>
    refine ⟨hl, ris, reset, level, ?_⟩
    rw [show (_ : Watchdog).counter = L from hl]
    omega
  | control data c unlocked hc =>
    refine ⟨load, ris, reset, irqLevel_updateOutputs ris, ?_⟩
    rcases hc with rfl | rfl
    · exact counter
    · show _ ≤ w.load.toNat + _
      rw [load]
      exact Nat.le_add_right _ _
  | intClr =>
    refine ⟨load, not_ris_clearInterrupt w, reset, irqLevel_updateOutputs (not_ris_clearInterrupt w), ?_⟩
    show _ ≤ w.load.toNat + _
    rw [load]
    exact Nat.le_add_right _ _

/-- A tick in time finds the counter above zero. -/
theorem tick (h : TickMove w w') (hn : n + 1 ≤ L.toNat) (hf : Fed L n w) : Fed L (n + 1) w' := by
  obtain ⟨load, ris, reset, level, counter⟩ := hf
  have hzero : w.counter ≠ 0 := by
    rintro h0
    rw [h0, UInt32.toNat_zero] at counter
    omega
  cases h with
  | off h => exact ⟨load, ris, reset, level, by omega⟩
  | count hne =>
    have hdec := toNat_pred hne
    exact ⟨load, ris, reset, level, by dsimp only; omega⟩
  | first zero | again zero | reset _ _ zero => exact absurd zero hzero

theorem step (h : Move w op w' o) (hl : w'.load = L)
    (hn : sinceKick (tr ++ [⟨w, op, w', o⟩]) ≤ L.toNat) (hf : Fed L (sinceKick tr) w) :
    Fed L (sinceKick (tr ++ [⟨w, op, w', o⟩])) w' := by
  rw [sinceKick_snoc] at hn ⊢
  cases h with
  | bus t h =>
    rw [if_neg (c := IsTick _) (by simp [IsTick])]
    exact hf.bus h hl
  | start hs =>
    rw [if_neg (by simp), if_neg (by simp [IsTick, hs])]
    exact ⟨hf.load, hf.ris, hf.reset, hf.level, hf.counter⟩
  | tick woken h =>
    rw [if_neg (by simp), if_pos ⟨rfl, woken⟩] at hn ⊢
    obtain ⟨load, ris, reset, level, counter⟩ := hf.tick h hn
    exact ⟨load, ris, reset, level, counter⟩
  | driveOutputs | delta | advance =>
    rw [if_neg (by simp), if_neg (by simp [IsTick])]
    exact ⟨hf.load, hf.ris, hf.reset, hf.level, hf.counter⟩

/-- A run in which WDOG_LOAD stays at `L` and no write of WDOG_INTCLR comes late. -/
theorem run {is : List Op} (h : Run (traced machine) w is tr w') (hload : ∀ f ∈ tr, f.post.load = L)
    (hkicks : ∀ tr', tr' <+: tr → sinceKick tr' ≤ L.toNat) (hf : Fed L 0 w) : Fed L (sinceKick tr) w' := by
  refine h.trace (fun tr a => (∀ f ∈ tr, f.post.load = L) → (∀ tr', tr' <+: tr → sinceKick tr' ≤ L.toNat) →
    Fed L (sinceKick tr) a) (fun _ _ => hf) ?_ hload hkicks
  intro tr a i b o hi ih hf hk
  have hfa := ih (fun f hmem => hf f (List.mem_append_left _ hmem))
    fun tr' hpre => hk tr' (hpre.trans (List.prefix_append _ _))
  exact hfa.step (machine_move hi) (hf ⟨a, i, b, o⟩ (by simp)) (hk _ (List.prefix_refl _))

end Fed

/-! ### The outputs -/

/-- `reset_o` follows `m_reset_asserted` and never runs ahead of it; where `drive_outputs` is not to run, the
outputs take the levels. -/
structure OutInv (w : Watchdog) : Prop where
  level : w.resetLevel = w.resetAsserted
  next : w.outputChanged = false → w.driveOutputsReady = false →
    w.irqNext = w.irqLevel ∧ w.resetONext = w.resetLevel
  out : w.resetO = true → w.resetONext = true
  asserted : w.resetONext = true → w.resetAsserted = true

namespace OutInv

theorem init (period : Nat) : OutInv (new period) :=
  ⟨rfl, fun _ h => absurd h.symm Bool.false_ne_true, id, id⟩

/-- A change of registers that leaves the outputs and their levels. -/
theorem congr (h : OutInv w) (hr : w'.resetAsserted = w.resetAsserted) (hrl : w'.resetLevel = w.resetLevel)
    (hil : w'.irqLevel = w.irqLevel) (hin : w'.irqNext = w.irqNext) (hrn : w'.resetONext = w.resetONext)
    (ho : w'.resetO = w.resetO) (hc : w'.outputChanged = w.outputChanged)
    (hd : w'.driveOutputsReady = w.driveOutputsReady) : OutInv w' := by
  refine ⟨?_, ?_, ?_, ?_⟩
  · rw [hrl, hr, h.level]
  · rw [hc, hd, hin, hil, hrn, hrl]
    exact h.next
  · rw [ho, hrn]
    exact h.out
  · rw [hrn, hr]
    exact h.asserted

/-- A change of registers followed by `update_outputs`. -/
theorem updateOutputs (h : OutInv w) (hr : w.resetAsserted = true → w'.resetAsserted = true)
    (hrn : w'.resetONext = w.resetONext) (ho : w'.resetO = w.resetO) : OutInv w'.updateOutputs := by
  refine ⟨rfl, fun hc => absurd hc.symm Bool.false_ne_true, ?_, ?_⟩
  · show w'.resetO = true → w'.resetONext = true
    rw [ho, hrn]
    exact h.out
  · show w'.resetONext = true → w'.resetAsserted = true
    rw [hrn]
    exact fun hn => hr (h.asserted hn)

theorem bus (h : BusMove w w' o) (hw : OutInv w) : OutInv w' := by
  cases h with
  | ignored => exact hw
  | read | control | intClr => exact hw.updateOutputs id rfl rfl
  | lock | load => exact hw.congr rfl rfl rfl rfl rfl rfl rfl rfl

theorem tick (h : TickMove w w') (hw : OutInv w) : OutInv w' := by
  cases h with
  | off => exact hw
  | count | again => exact hw.congr rfl rfl rfl rfl rfl rfl rfl rfl
  | first zero ris reset =>
    have hu : OutInv { w with ris := risAsserted }.updateOutputs := hw.updateOutputs id rfl rfl
    exact hu.congr rfl rfl rfl rfl rfl rfl rfl rfl
  | reset => exact hw.updateOutputs (fun _ => rfl) rfl rfl

theorem step (h : Move w op w' o) (hw : OutInv w) : OutInv w' := by
  cases h with
  | bus t h => exact hw.bus h
  | start | advance => exact hw.congr rfl rfl rfl rfl rfl rfl rfl rfl
  | tick woken h => exact (hw.tick h).congr rfl rfl rfl rfl rfl rfl rfl rfl
  | driveOutputs ready =>
    exact ⟨hw.level, fun _ _ => ⟨rfl, rfl⟩, fun h => hw.level.trans (hw.asserted (hw.out h)),
      fun h => hw.level.symm.trans h⟩
  | delta idle => exact ⟨hw.level, fun _ hd => hw.next hd idle.2, id, hw.asserted⟩

theorem resetO_kept (h : Move w op w' o) (hw : OutInv w) (hpre : w.resetO = true) : w'.resetO = true := by
  cases h with
  | bus t h =>
    cases h with
    | ignored | read | lock | load | control | intClr => exact hpre
  | tick woken h =>
    cases h with
    | off | count | first | again | reset => exact hpre
  | delta idle => exact hw.out hpre
  | start | driveOutputs | advance => exact hpre

theorem of_run {period : Nat} {is : List Op} {os : List Obs} (h : Run machine (new period) is os w) :
    OutInv w :=
  h.inv OutInv (init period) fun _ _ _ _ hi hw => hw.step (machine_move hi)

end OutInv

/-! ### The reset -/

/-- A tick sets RIS. -/
def SetsRis (e : Step Watchdog Op Obs) : Prop := IsTick e ∧ ¬ e.pre.Ris ∧ e.post.Ris

/-- A write of WDOG_INTCLR is accepted. -/
def ClearsRis (e : Step Watchdog Op Obs) : Prop := .intClr ∈ e.obs

/-- RIS was set by a tick and has not been cleared since. -/
def RisInv (tr : List (Step Watchdog Op Obs)) (w : Watchdog) : Prop := w.Ris → Latched SetsRis ClearsRis tr

namespace RisInv

theorem keep {e : Step Watchdog Op Obs} (h : RisInv tr w) (hris : w'.ris = w.ris) (hc : .intClr ∉ e.obs) :
    RisInv (tr ++ [e]) w' := by
  intro hr
  rw [Ris, hris] at hr
  exact latched_snoc.2 (.inr ⟨h hr, hc⟩)

theorem step (h : Move w op w' o) (hw : RisInv tr w) : RisInv (tr ++ [⟨w, op, w', o⟩]) w' := by
  cases h with
  | bus t h =>
    cases h with
    | ignored | read | lock | load | control => exact hw.keep rfl (by simp)
    | intClr => exact fun hr => absurd hr (not_ris_clearInterrupt w)
  | tick woken h =>
    cases h with
    | first zero ris reset => exact fun hr => latched_snoc.2 (.inl ⟨⟨rfl, woken⟩, ris, hr⟩)
    | off | count | again | reset => exact hw.keep rfl (by simp)
  | start | driveOutputs | delta | advance => exact hw.keep rfl (by simp)

theorem of_run {period : Nat} {is : List Op} (h : Run (traced machine) (new period) is tr w) : RisInv tr w := by
  have h0 : ¬ (new period).Ris := by
    show ¬ ((0 : UInt32) &&& risAsserted ≠ 0)
    decide
  exact h.trace RisInv (fun hr => absurd hr h0) fun _ _ _ _ _ hi hw => hw.step (machine_move hi)

end RisInv

/-- Only a tick with INTEN and RESEN set, the counter at zero and RIS set asserts the reset. -/
theorem reset_of_step (h : Move w op w' o) (hpre : w.resetAsserted = false) (hpost : w'.resetAsserted = true) :
    IsTick ⟨w, op, w', o⟩ ∧ w.interruptEnabled = true ∧ w.resetEnabled = true ∧ w.counter = 0 ∧ w.Ris := by
  have same : w'.resetAsserted = w.resetAsserted → False := fun h => by
    rw [h, hpre] at hpost
    cases hpost
  cases h with
  | bus t h =>
    cases h with
    | ignored | read | lock | load | control | intClr => exact (same rfl).elim
  | tick woken h =>
    cases h with
    | reset inten resen zero ris => exact ⟨⟨rfl, woken⟩, inten, resen, zero, ris⟩
    | off | count | first | again => exact (same rfl).elim
  | start | driveOutputs | delta | advance => exact (same rfl).elim

theorem reset_kept (h : Move w op w' o) (hpre : w.resetAsserted = true) : w'.resetAsserted = true := by
  cases h with
  | bus t h =>
    cases h with
    | ignored | read | lock | load | control | intClr => exact hpre
  | tick woken h =>
    cases h with
    | reset => rfl
    | off | count | first | again => exact hpre
  | start | driveOutputs | delta | advance => exact hpre

theorem clearInterrupt_of_intClr (h : Move w op w' o) (ho : .intClr ∈ o) : w' = w.clearInterrupt := by
  cases h with
  | bus t h =>
    cases h with
    | intClr => rfl
    | ignored | read | lock | load | control => simp at ho
  | start | tick | driveOutputs | delta | advance => simp at ho

end Watchdog

open Watchdog

/-- Watchdog reset safety. In every run, after a write of WDOG_INTCLR accepted before the reset, with WDOG_LOAD
at `L` from then on, RIS takes at least `L + 1` ticks and the reset at least `2 (L + 1)`; with the writes of
WDOG_INTCLR never more than `L` ticks apart neither comes, and the settled outputs are low. The accepted writes
are all that come unlocked and pass the checks. The reset is only asserted by a tick with INTEN and RESEN set,
the counter at zero and RIS set by an earlier tick and not cleared since; and it is never deasserted, nor is
`reset_o`. -/
theorem watchdog_reset_safety (period : Nat) (is : List Op) (tr : List (Step Watchdog Op Obs)) (w : Watchdog)
    (hrun : Run (traced machine) (new period) is tr w) :
    (∀ (tr₁ tr₂ : List (Step Watchdog Op Obs)) (e : Step Watchdog Op Obs) (L : UInt32),
      tr = tr₁ ++ e :: tr₂ → .intClr ∈ e.obs → e.pre.resetAsserted = false → e.pre.load = L →
      (∀ f ∈ tr₂, f.post.load = L) →
      (w.Ris → L.toNat + 1 ≤ ticks tr₂) ∧ (w.resetAsserted = true → 2 * (L.toNat + 1) ≤ ticks tr₂) ∧
      ((∀ tr', tr' <+: tr₂ → sinceKick tr' ≤ L.toNat) →
        ¬ w.Ris ∧ w.resetAsserted = false ∧ (w.Settled → w.irq = false ∧ w.resetO = false))) ∧
    (∀ e ∈ tr, .intClr ∈ e.obs ↔ e.pre.locked = false ∧ ∃ t, e.input = .transport t ∧ WritesIntClr t) ∧
    (∀ (tr₁ tr₂ : List (Step Watchdog Op Obs)) (e : Step Watchdog Op Obs), tr = tr₁ ++ e :: tr₂ →
      e.pre.resetAsserted = false → e.post.resetAsserted = true →
      IsTick e ∧ e.pre.interruptEnabled = true ∧ e.pre.resetEnabled = true ∧ e.pre.counter = 0 ∧
        Latched SetsRis ClearsRis tr₁) ∧
    ∀ e ∈ tr, (e.pre.resetAsserted = true → e.post.resetAsserted = true) ∧
      (e.pre.resetO = true → e.post.resetO = true) ∧
      (e.post.resetO = true → e.post.resetAsserted = true) := by
  refine ⟨?_, ?_, ?_, ?_⟩
  · rintro tr₁ tr₂ e L rfl hclr hreset hl hload
    obtain ⟨is₁, is₂, -, hpre, he, hpost⟩ := hrun.split
    have hclear := clearInterrupt_of_intClr (machine_move he) hclr
    have hk : Kicked L 0 e.post := by
      rw [hclear]
      refine .quiet (not_ris_clearInterrupt _) hreset ?_
      show _ ≤ e.pre.load.toNat + 0
      rw [hl]
      exact le_rfl
    have hl' : e.post.load = L := by
      rw [hclear]
      exact hl
    have hbound := hk.run hpost hl' hload
    refine ⟨fun hris => ?_, fun hr => ?_, fun hkicks => ?_⟩
    · cases hbound with
      | quiet hno => exact absurd hris hno
      | pending _ hn | fired hn => omega
    · cases hbound with
      | quiet _ hno | pending hno =>
        rw [hno] at hr
        cases hr
      | fired hn => exact hn
    · have hf : Fed L 0 e.post := by
        rw [hclear]
        refine ⟨hl, not_ris_clearInterrupt _, hreset,
          Fed.irqLevel_updateOutputs (not_ris_clearInterrupt e.pre), ?_⟩
        show _ ≤ e.pre.load.toNat + 0
        rw [hl]
        exact le_rfl
      have hfed := hf.run hpost hload hkicks
      refine ⟨hfed.ris, hfed.reset, fun hs => ?_⟩
      have hout := OutInv.of_run hrun.of_traced
      obtain ⟨⟨-, hready⟩, -, hc, hirq, hro⟩ := hs
      obtain ⟨h1, h2⟩ := hout.next hc hready
      exact ⟨hirq.trans (h1.trans hfed.level), hro.trans (h2.trans (hout.level.trans hfed.reset))⟩
  · exact fun e he => intClr_iff (hrun.step_of_mem he)
  · rintro tr₁ tr₂ e rfl hpre hpost
    obtain ⟨is₁, is₂, -, hrun₁, he, -⟩ := hrun.split
    obtain ⟨ht, hi, hr, hz, hris⟩ := reset_of_step (machine_move he) hpre hpost
    exact ⟨ht, hi, hr, hz, RisInv.of_run hrun₁ hris⟩
  · intro e hmem
    obtain ⟨tr₁, tr₂, rfl⟩ := List.append_of_mem hmem
    obtain ⟨is₁, is₂, -, hrun₁, he, -⟩ := hrun.split
    have hmove := machine_move he
    have hpre := OutInv.of_run hrun₁.of_traced
    have hpost := hpre.step hmove
    exact ⟨reset_kept hmove, hpre.resetO_kept hmove, fun h => hpost.asserted (hpost.out h)⟩

def wdogPayload (addr : UInt64) (data : UInt32) : ApbPayload :=
  ⟨⟨.write, addr, some (bytes 4 data.toNat), 4, .incomplete, false⟩, none, 4⟩

def wdogWrite (addr : UInt64) (data : UInt32) : Op := .transport (wdogPayload addr data)

/-- Start-up, with WDOG_LOAD at 1 and both enable bits set. -/
def wdogArmed : List Op := [.counterThread, .driveOutputs, wdogWrite 0x000 1, wdogWrite 0x008 3]

/-- Four ticks after a kick: the two timeouts of a counter reloaded with 1. -/
def fourTicks : List Op :=
  [.delta, .driveOutputs, .delta, .advance 10, .counterThread, .advance 20, .counterThread, .delta,
    .driveOutputs, .delta, .advance 30, .counterThread, .advance 40, .counterThread]

/-- The bound is met: the reset comes with the fourth tick after the kick. -/
theorem watchdog_reset_safety_fourTicks : ∃ (tr₁ tr₂ : List (Step Watchdog Op Obs))
    (e : Step Watchdog Op Obs) (w : Watchdog) (is : List Op),
    Run (traced machine) (new 10) is (tr₁ ++ e :: tr₂) w ∧ e.input = wdogWrite 0x00C 0 ∧ .intClr ∈ e.obs ∧
      e.pre.resetAsserted = false ∧ e.pre.load = 1 ∧ (∀ f ∈ tr₂, f.post.load = 1) ∧
      w.resetAsserted = true ∧ ticks tr₂ = 4 ∧ 2 * ((1 : UInt32).toNat + 1) ≤ ticks tr₂ := by
  have hx : ((exec (traced machine) (new 10) wdogArmed).bind fun p =>
      (machine p.1 (wdogWrite 0x00C 0)).bind fun q => (exec (traced machine) q.1 fourTicks).map fun r =>
        (q.2, p.1.resetAsserted, p.1.load, r.2.all fun f => f.post.load = 1, r.1.resetAsserted, ticks r.2)) =
      some ([.intClr], false, 1, true, true, 4) := by decide +kernel
  obtain ⟨⟨a, tr₁⟩, hpre, hx⟩ := Option.bind_eq_some_iff.1 hx
  obtain ⟨⟨b, o⟩, hkick, hx⟩ := Option.bind_eq_some_iff.1 hx
  obtain ⟨⟨w, tr₂⟩, hpost, hx⟩ := Option.map_eq_some_iff.1 hx
  simp only [Prod.mk.injEq] at hx
  obtain ⟨rfl, hreset, hl, hall, hw, hticks⟩ := hx
  have hstep : traced machine a (wdogWrite 0x00C 0) = some (b, [⟨a, wdogWrite 0x00C 0, b, [.intClr]⟩]) := by
    rw [traced, hkick]
    rfl
  have hrun := ((Run.of_exec hpre).snoc hstep).append (Run.of_exec hpost)
  simp only [List.append_assoc, List.singleton_append] at hrun
  have hclear : Obs.intClr ∈ [Obs.intClr] := List.mem_singleton_self _
  have hload : ∀ f ∈ tr₂, f.post.load = 1 := fun f hf => of_decide_eq_true (List.all_eq_true.1 hall f hf)
  refine ⟨tr₁, tr₂, _, w, _, hrun, rfl, hclear, hreset, hl, hload, hw, hticks, ?_⟩
  exact ((watchdog_reset_safety 10 _ _ w hrun).1 tr₁ tr₂ _ 1 rfl hclear hreset hl hload).2.1 hw

end CdcVp
