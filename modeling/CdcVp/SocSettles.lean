import CdcVp.SocEdges

/-!
# The platform within one instant

The processes of the two controllers, with no time passing. `left` bounds the moves they have left: unless the CLINT
stalls, they come to an end in any order, and the levels at the end are what the registers said at the start.
-/

namespace CdcVp
open Runs ScEvent

namespace Clint
variable {c c' : Clint} {op : Op} {o : List Event}

/-- A move of the kernel that takes no time. -/
def Op.isNow : Op → Bool
  | .start | .wake | .delta | .expire => true
  | _ => false

theorem Op.not_isAdvance (h : op.isNow = true) : op.isAdvance = false := by
  cases op with
  | advance => cases h
  | _ => rfl

/-- Short of the compare time, but the goal of `reschedule` is not in the future. -/
def Stalls (c : Clint) : Prop :=
  c.now.toNat / 10 ^ 6 < c.mtimecmp.toNat ∧ c.mtimecmp.toNat * 10 ^ 6 % 2 ^ 64 ≤ c.now.toNat

/-- A notification for the current time is pending. -/
def Notified (c : Clint) : Prop := c.cmpEvent = .delta ∨ c.cmpEvent = .timed c.now.toNat

instance (c : Clint) : Decidable c.Stalls := by unfold Stalls; infer_instance
instance (c : Clint) : Decidable c.Notified := by unfold Notified; infer_instance

/-- `timer_proc` goes round its loop again and again. -/
def Spinning (c : Clint) : Prop := c.Stalls ∧ c.PendingNow

/-- How many moves are left. -/
def left (c : Clint) : Nat := (if c.timerProc = .waiting then 0 else 1) + if c.Notified then 2 else 0

theorem Stalls.not_fired (h : c.Stalls) : ¬ c.Fired := fun hf => Nat.not_lt_of_le hf.2 h.1

theorem Stalls.mtimecmp_ne (h : c.Stalls) : c.mtimecmp ≠ 0 := by
  intro hz
  have := h.1
  rw [hz] at this
  exact Nat.not_lt_zero _ this

/-- What a move within the instant leaves. -/
structure SameRegs (c c' : Clint) : Prop where
  mtimecmp : c'.mtimecmp = c.mtimecmp
  msip : c'.msip = c.msip
  now : c'.now = c.now

theorem SameRegs.stalls (h : SameRegs c c') : c'.Stalls ↔ c.Stalls := by
  rw [Stalls, Stalls, h.mtimecmp, h.now]

theorem sameRegs_step (h : machine c op = some (c', o)) (hop : op.isNow = true) : SameRegs c c' := by
  rcases step_cases h with ⟨t, d, r, rfl, -⟩ | ⟨-, -, rfl, -⟩ | ⟨-, -, rfl, -⟩ | ⟨-, -, -, rfl, -⟩ |
    ⟨time, rfl, -⟩ | ⟨-, -, -, rfl, -⟩
  · cases hop
  · exact ⟨rfl, rfl, rfl⟩
  · exact ⟨c.timerTurn_mtimecmp, c.timerTurn_msip, c.timerTurn_now⟩
  · exact ⟨rfl, rfl, rfl⟩
  · cases hop
  · exact ⟨rfl, rfl, rfl⟩

/-- Unless it stalls, `timer_proc` does not notify itself for the current time. -/
theorem notified_timerTurn (ht : Timer c) (hw : c.timerProc = .woken) (hno : ¬ c.Stalls)
    (h : c.timerTurn.Notified) : c.Notified := by
  rw [Notified, cmpEvent_timerTurn, timerTurn_now] at h
  split at h
  · exact h
  rename_i hor
  obtain ⟨hnf, hz⟩ := not_or.1 hor
  rcases ht.woken hw with hev | hev
  · have hlt : c.now.toNat / 10 ^ 6 < c.mtimecmp.toNat := Nat.lt_of_not_le fun h => hnf ⟨hz, h⟩
    have hpos : 0 < c.rescheduleDelay :=
      (rescheduleDelay_pos_iff c).2 (Nat.lt_of_not_le fun hle => hno ⟨hlt, hle⟩)
    rw [hev, Notification.notify_none hpos] at h
    rcases h with h | h
    · cases h
    · have := Notification.timed.inj h
      omega
  · exact .inl hev

theorem left_waiting (h : c.timerProc = .waiting) : c.left = if c.Notified then 2 else 0 := by
  rw [left, if_pos h, Nat.zero_add]

theorem left_running (h : c.timerProc ≠ .waiting) : c.left = 1 + if c.Notified then 2 else 0 := by
  rw [left, if_neg h]

theorem left_le (c : Clint) : c.left ≤ 3 := by
  unfold left
  split <;> split <;> decide

/-- A move that does not stall is one less. -/
theorem left_step (ht : Timer c) (h : machine c op = some (c', o)) (hop : op.isNow = true) (hno : ¬ c.Spinning) :
    c'.left < c.left ∧ ¬ c'.Spinning := by
  have hsame := sameRegs_step h hop
  have hkeep (hp : c'.PendingNow → c.PendingNow) : ¬ c'.Spinning := fun hs => hno ⟨hsame.stalls.1 hs.1, hp hs.2⟩
  -- a delivered notification takes two moves less, and wakes `timer_proc`
  have hdeliver (hw : c.timerProc = .waiting) (hn : c.Notified)
      (hc : c' = { c with cmpEvent := .none, timerProc := .woken }) : c'.left < c.left ∧ ¬ c'.Spinning := by
    refine ⟨?_, hkeep fun _ => .inr hn⟩
    subst hc
    rw [left_waiting hw, if_pos hn, left_running (by simp), if_neg (by rintro (h | h) <;> cases h)]
    decide
  rcases step_cases h with ⟨t, d, r, rfl, -⟩ | ⟨-, hst, rfl, -⟩ | ⟨-, hw, rfl, -⟩ | ⟨-, hw, hev, hc, -⟩ |
    ⟨time, rfl, -⟩ | ⟨-, hw, hev, hc, -⟩
  · cases hop
  · refine ⟨?_, hkeep ?_⟩
    · rw [left_waiting rfl, left_running (by rw [hst]; decide)]
      exact Nat.lt_add_of_pos_left Nat.one_pos
    · rintro (hp | hp)
      · cases hp
      · exact .inr hp
  · refine ⟨?_, hkeep fun _ => .inl hw⟩
    have hnot := notified_timerTurn ht hw fun hs => hno ⟨hs, .inl hw⟩
    rw [left_waiting c.timerTurn_timerProc, left_running (by rw [hw]; decide)]
    by_cases hn : c.timerTurn.Notified
    · rw [if_pos hn, if_pos (hnot hn)]
      decide
    · rw [if_neg hn]
      exact Nat.lt_add_right _ Nat.one_pos
  · exact hdeliver hw (.inl hev) hc
  · cases hop
  · exact hdeliver hw (.inr hev) hc

/-- A stalled `timer_proc` always has a move, and stalls again. -/
theorem spinning_step (h : c.Spinning) : ∃ op c' o, op.isNow = true ∧ machine c op = some (c', o) ∧ c'.Spinning := by
  obtain ⟨hs, hp⟩ := h
  have hgo (op : Op) {c' : Clint} {o : List Event} (hop : op.isNow = true) (hm : machine c op = some (c', o))
      (hp' : c'.PendingNow) : ∃ op c' o, op.isNow = true ∧ machine c op = some (c', o) ∧ c'.Spinning :=
    ⟨op, c', o, hop, hm, (sameRegs_step hm hop).stalls.2 hs, hp'⟩
  cases hproc : c.timerProc with
  | start =>
    refine hgo .start rfl (if_pos hproc) (.inr (hp.resolve_left ?_))
    rw [hproc]
    decide
  | woken =>
    refine hgo .wake rfl (if_pos hproc) (.inr (.inl ?_))
    have hzero : c.rescheduleDelay = 0 :=
      Nat.eq_zero_of_not_pos fun hpos => Nat.not_lt_of_le hs.2 ((rescheduleDelay_pos_iff c).1 hpos)
    rw [cmpEvent_timerTurn, if_neg (not_or.2 ⟨hs.not_fired, hs.mtimecmp_ne⟩), hzero, Notification.notify_zero]
  | waiting =>
    rcases hp.resolve_left (by rw [hproc]; decide) with hev | hev
    · exact hgo .delta rfl (if_pos ⟨hproc, hev⟩) (.inl rfl)
    · exact hgo .expire rfl (if_pos ⟨hproc, hev⟩) (.inl rfl)

/-- No move is left iff `timer_proc` has started and nothing is pending for the current time. -/
theorem stuck_iff : (∀ op, op.isNow = true → machine c op = none) ↔ c.timerProc ≠ .start ∧ ¬ c.PendingNow := by
  constructor
  · intro h
    have hno (op : Op) {r : Clint × List Event} (hop : op.isNow = true) (hr : machine c op = some r) : False :=
      Option.some_ne_none r (hr.symm.trans (h op hop))
    have hstart : c.timerProc ≠ .start := fun hp => hno .start rfl (if_pos hp)
    have hwoken : c.timerProc ≠ .woken := fun hp => hno .wake rfl (if_pos hp)
    refine ⟨hstart, ?_⟩
    rintro (hp | hp)
    · exact hwoken hp
    · cases hproc : c.timerProc with
      | start => exact hstart hproc
      | woken => exact hwoken hproc
      | waiting =>
        rcases hp with hev | hev
        · exact hno .delta rfl (if_pos ⟨hproc, hev⟩)
        · exact hno .expire rfl (if_pos ⟨hproc, hev⟩)
  · rintro ⟨hstart, hno⟩ op hop
    cases op with
    | start => exact if_neg hstart
    | wake => exact if_neg fun h => hno (.inl h)
    | delta => exact if_neg fun h => hno (.inr (.inl h.2))
    | expire => exact if_neg fun h => hno (.inr (.inr h.2))
    | transport | advance => cases hop

/-- Time can pass iff no move is left. -/
theorem advance_iff (ht : Timer c) (hnow : c.now.toNat + 1 < 2 ^ 64) :
    (∃ time, machine c (.advance time) ≠ none) ↔ c.timerProc ≠ .start ∧ ¬ c.PendingNow := by
  constructor
  · rintro ⟨time, h⟩
    obtain ⟨⟨c', o⟩, hm⟩ := Option.ne_none_iff_exists'.1 h
    rcases step_cases hm with ⟨t, d, r, heq, -⟩ | ⟨heq, -⟩ | ⟨heq, -⟩ | ⟨heq, -⟩ | ⟨time', heq, hw, hlt, hev, -⟩ |
      ⟨heq, -⟩ <;> cases heq
    refine ⟨by rw [hw]; decide, ?_⟩
    rintro (hp | hp | hp)
    · rw [hw] at hp
      cases hp
    · rcases hev with hev | ⟨t, hev, -⟩ <;> rw [hev] at hp <;> cases hp
    · rcases hev with hev | ⟨t, hev, hle⟩ <;> rw [hev] at hp <;> cases hp
      exact Nat.not_lt_of_le hle (UInt64.lt_iff_toNat_lt.1 hlt)
  · rintro ⟨hstart, hno⟩
    have hw : c.timerProc = .waiting := by
      cases hproc : c.timerProc with
      | start => exact absurd hproc hstart
      | woken => exact absurd (.inl hproc) hno
      | waiting => rfl
    have htime : (c.now + 1).toNat = c.now.toNat + 1 := by
      rw [UInt64.toNat_add]
      exact Nat.mod_eq_of_lt hnow
    have hlt : c.now < c.now + 1 := UInt64.lt_iff_toNat_lt.2 (by rw [htime]; exact Nat.lt_succ_self _)
    refine ⟨c.now + 1, ?_⟩
    simp only [machine, hw, hlt, and_self, if_true]
    cases hev : c.cmpEvent with
    | none => exact Option.some_ne_none _
    | delta => exact absurd (.inr (.inl hev)) hno
    | timed t =>
      have hle := (ht.armed (by rw [hw]; decide) t hev).2.2.1
      have hne : t ≠ c.now.toNat := by
        rintro rfl
        exact hno (.inr (.inr hev))
      have hnext : (c.now + 1).toNat ≤ t := by
        rw [htime]
        exact Nat.lt_of_le_of_ne hle hne.symm
      dsimp only
      rw [if_pos hnext]
      exact Option.some_ne_none _

end Clint

namespace RiscvCustomSoc
variable {υ ι : Type*} {ip : Ip υ ι} {s s' : RiscvCustomSoc υ ι} {op : Op υ ι} {is : List (Op υ ι)}
  {o os : List Payload} {uart : υ} {i2c : ι} {cause : Nat}

/-- A process of one of the controllers runs, or its event is delivered, with no time passing. -/
def Op.isNow : Op υ ι → Bool
  | .onSources => true
  | .kernel move => move.op.isNow
  | _ => false

def left (s : RiscvCustomSoc υ ι) : Nat := (if s.plic.onSourcesReady then 1 else 0) + s.clint.left

/-- What a move within the instant leaves: the registers that the interrupts depend on. -/
structure SameInstant (s s' : RiscvCustomSoc υ ι) : Prop where
  clint : Clint.SameRegs s.clint s'.clint
  setup : Plic.SameSetup s.plic s'.plic
  line : s'.plic.line 1 = s.plic.line 1
  claimed : s'.plic.isClaimed 1 = s.plic.isClaimed 1

namespace SameInstant

theorem refl (s : RiscvCustomSoc υ ι) : SameInstant s s := ⟨⟨rfl, rfl, rfl⟩, .refl _, rfl, rfl⟩

theorem trans {s'' : RiscvCustomSoc υ ι} (h : SameInstant s s') (h' : SameInstant s' s'') : SameInstant s s'' :=
  ⟨⟨h'.clint.mtimecmp.trans h.clint.mtimecmp, h'.clint.msip.trans h.clint.msip, h'.clint.now.trans h.clint.now⟩,
    h.setup.trans h'.setup, h'.line.trans h.line, h'.claimed.trans h.claimed⟩

theorem due (h : SameInstant s s') (hc : RiscvVpCpu.Wire cause) : s'.Due cause ↔ s.Due cause := by
  rcases hc with rfl | rfl | rfl
  · simp only [Due, h.clint.msip]
  · simp only [Due, h.clint.mtimecmp, h.clint.now]
  · simp only [Due, Plic.priorityOf, h.setup.priority, h.setup.enable, h.setup.threshold, h.line, h.claimed]

end SameInstant

theorem onSources_move (h : machine ip s .onSources = some (s', o)) :
    s.plic.onSourcesReady = true ∧ s' = s.withPlic s.plic.onSources := by
  simp only [machine, Plic.machine] at h
  obtain ⟨r, hr, heq⟩ := Option.map_eq_some_iff.1 h
  obtain ⟨hready, hr⟩ := Option.ite_none_right_eq_some.1 hr
  cases hr
  cases heq
  exact ⟨hready, rfl⟩

theorem kernel_move {move : Kernel} (h : machine ip s (.kernel move) = some (s', o)) :
    ∃ c ev, Clint.machine s.clint move.op = some (c, ev) ∧ s' = s.withClint c := by
  simp only [machine] at h
  split at h
  · cases h
  obtain ⟨⟨c, ev⟩, hc, heq⟩ := Option.map_eq_some_iff.1 h
  cases heq
  exact ⟨c, ev, hc, rfl⟩

theorem settling_step (ht : Clint.Timer s.clint) (h : machine ip s op = some (s', o)) (hop : op.isNow = true)
    (hno : ¬ s.clint.Spinning) : SameInstant s s' ∧ s'.left < s.left ∧ ¬ s'.clint.Spinning := by
  cases op with
  | onSources =>
    obtain ⟨hready, rfl⟩ := onSources_move h
    refine ⟨⟨⟨rfl, rfl, rfl⟩, ⟨rfl, rfl, rfl⟩, rfl, rfl⟩, ?_, hno⟩
    rw [left, left, hready, if_pos rfl]
    exact Nat.add_lt_add_right Nat.one_pos _
  | kernel move =>
    obtain ⟨c, ev, hc, rfl⟩ := kernel_move h
    obtain ⟨hlt, hno'⟩ := Clint.left_step ht hc hop hno
    exact ⟨⟨Clint.sameRegs_step hc hop, .refl _, rfl, rfl⟩, Nat.add_lt_add_left hlt _, hno'⟩
  | transport | i2cIrq | uart | i2c => cases hop

theorem Kernel.exists_op {j : Clint.Op} (h : j.isNow = true) : ∃ move : Kernel, move.op = j := by
  cases j with
  | start => exact ⟨.start, rfl⟩
  | wake => exact ⟨.wake, rfl⟩
  | delta => exact ⟨.delta, rfl⟩
  | expire => exact ⟨.expire, rfl⟩
  | transport | advance => cases h

theorem machine_kernel {move : Kernel} (h : move.op.isNow = true) : machine ip s (.kernel move) =
    (Clint.machine s.clint move.op).map fun r => (s.withClint r.1, []) := by
  simp only [machine, Clint.Op.not_isAdvance h, Bool.false_eq_true, false_and, if_false]

/-- No move is left iff the controllers have nothing left to do, the start of `timer_proc` included. -/
theorem stuck_iff : (∀ op : Op υ ι, op.isNow = true → machine ip s op = none) ↔
    s.clint.timerProc ≠ .start ∧ Settled s := by
  constructor
  · intro h
    have hclint : ∀ j : Clint.Op, j.isNow = true → Clint.machine s.clint j = none := by
      intro j hj
      obtain ⟨move, rfl⟩ := Kernel.exists_op hj
      have := h (.kernel move) hj
      rw [machine_kernel hj] at this
      exact Option.map_eq_none_iff.1 this
    obtain ⟨hstart, hno⟩ := Clint.stuck_iff.1 hclint
    refine ⟨hstart, ?_, hno⟩
    rw [← Bool.not_eq_true]
    intro hready
    have := Option.map_eq_none_iff.1 (h .onSources rfl)
    simp [Plic.machine, hready] at this
  · rintro ⟨hstart, hset⟩ op hop
    cases op with
    | onSources => simp [machine, Plic.machine, hset.plic]
    | kernel move =>
      rw [machine_kernel hop, Clint.stuck_iff.2 ⟨hstart, hset.clint⟩ _ hop]
      rfl
    | transport | i2cIrq | uart | i2c => cases hop

theorem advance_iff (ht : Clint.Timer s.clint) (hnow : s.clint.now.toNat + 1 < 2 ^ 64) :
    (∃ time, machine ip s (.kernel (.advance time)) ≠ none) ↔ s.clint.timerProc ≠ .start ∧ Settled s := by
  have hadv (time : UInt64) : machine ip s (.kernel (.advance time)) ≠ none ↔
      s.plic.onSourcesReady = false ∧ Clint.machine s.clint (.advance time) ≠ none := by
    simp only [machine, Kernel.op, Clint.Op.isAdvance, true_and]
    cases s.plic.onSourcesReady with
    | true => simp
    | false => simp [Option.map_eq_none_iff]
  simp only [hadv, exists_and_left, Clint.advance_iff ht hnow]
  exact ⟨fun h => ⟨h.2.1, h.1, h.2.2⟩, fun h => ⟨h.2.plic, h.1, h.2.clint⟩⟩

end RiscvCustomSoc

open RiscvCustomSoc

/-- The platform settles. From any reachable state, unless the CLINT stalls, the controllers have at most four moves
before time passes, whatever their order, and when none is left the level of each cause is what the registers said
at the start. Time can pass then, and not before. A CLINT that stalls has no end of moves. -/
theorem riscv_custom_soc_settles {υ ι : Type*} (ip : Ip υ ι) (uart : υ) (i2c : ι) (is : List (Op υ ι))
    (os : List Payload) (s : RiscvCustomSoc υ ι) (hrun : Run (machine ip) (new uart i2c) is os s) :
    (¬ s.clint.Spinning → ∀ (turns : List (Op υ ι)) (os' : List Payload) (s' : RiscvCustomSoc υ ι),
      Run (machine ip) s turns os' s' → (∀ op ∈ turns, op.isNow = true) →
      turns.length ≤ 4 ∧ s'.clint.now = s.clint.now ∧
      ((∀ op : Op υ ι, op.isNow = true → machine ip s' op = none) →
        ∀ cause, RiscvVpCpu.Wire cause → (s'.cpu.level cause = true ↔ s.Due cause)) ∧
      (s.clint.now.toNat + 1 < 2 ^ 64 → ((∃ time, machine ip s' (.kernel (.advance time)) ≠ none) ↔
        ∀ op : Op υ ι, op.isNow = true → machine ip s' op = none))) ∧
    (s.clint.Spinning → ∀ k, ∃ (turns : List (Op υ ι)) (os' : List Payload) (s' : RiscvCustomSoc υ ι),
      Run (machine ip) s turns os' s' ∧ (∀ op ∈ turns, op.isNow = true) ∧ turns.length = k ∧
      s'.clint.now = s.clint.now) := by
  refine ⟨?_, ?_⟩
  · intro hno turns os' s' hturns hall
    have hstart : Clint.Timer s.clint ∧ SameInstant s s ∧ ¬ s.clint.Spinning := ⟨timer_run hrun, .refl s, hno⟩
    obtain ⟨⟨ht, hsame, -⟩, hlen⟩ := hturns.length_le (fun op => op.isNow = true) hall
      (fun a => Clint.Timer a.clint ∧ SameInstant s a ∧ ¬ a.clint.Spinning) hstart left
      fun a op b o hop hm ⟨hta, hsa, hna⟩ => by
        obtain ⟨hab, hlt, hnb⟩ := settling_step hta hm hop hna
        exact ⟨⟨(part_clint ip).step_inv (fun _ _ _ _ => Clint.Timer.step) hm hta, hsa.trans hab, hnb⟩, hlt⟩
    refine ⟨?_, hsame.clint.now, fun hstuck cause hc => ?_, fun hlt => ?_⟩
    · have hleft : s.left ≤ 4 := by
        have := s.clint.left_le
        unfold left
        split <;> omega
      omega
    · rw [← hsame.due hc]
      exact level_iff_due (hrun.append hturns) (stuck_iff.1 hstuck).2 hc
    · rw [stuck_iff]
      exact advance_iff ht (by rwa [hsame.clint.now])
  · intro hspin k
    obtain ⟨turns, os', s', hturns, hall, hlen, -, hsame⟩ := Run.exists_length (M := machine ip)
      (fun op : Op υ ι => op.isNow = true) (fun a => a.clint.Spinning ∧ a.clint.now = s.clint.now) ⟨hspin, rfl⟩
      (fun a ⟨hs, hn⟩ => by
        obtain ⟨j, c, o, hj, hm, hc⟩ := Clint.spinning_step hs
        obtain ⟨move, rfl⟩ := Kernel.exists_op hj
        refine ⟨.kernel move, a.withClint c, [], hj, ?_, hc, (Clint.sameRegs_step hm hj).now.trans hn⟩
        rw [machine_kernel hj, hm]
        rfl) k
    exact ⟨turns, os', s', hturns, hall, hlen, hsame⟩

/-- The bound is met: `timer_proc` starts, both processes run, and `mtimecmp` has just been written. -/
theorem riscv_custom_soc_settles_raised : ∃ (s s' : RiscvCustomSoc Unit Unit) (os' : List Payload),
    Run (machine Ip.idle) s [.kernel .start, .onSources, .kernel .delta, .kernel .wake] os' s' ∧
    s.cpu.level 11 = false ∧ s.Due 11 ∧ s'.cpu.level 11 = true := by
  have hok : (exec (machine Ip.idle) (new () ()) [
      .transport ⟨.write, 0x0C000004, some [1, 0, 0, 0], 4, .incomplete, false⟩ 0,
      .transport ⟨.write, 0x0C002000, some [2, 0, 0, 0], 4, .incomplete, false⟩ 0, .i2cIrq true,
      .transport ⟨.write, 0x02004000, some [3, 0, 0, 0, 0, 0, 0, 0], 8, .incomplete, false⟩ 0]).any (fun p =>
        !p.1.cpu.level 11 && decide (p.1.Due 11) && !decide p.1.clint.Stalls &&
          (exec (machine Ip.idle) p.1 [.kernel .start, .onSources, .kernel .delta, .kernel .wake]).any fun q =>
            decide (q.1.clint.timerProc ≠ .start) && decide (Settled q.1)) = true := by
    decide +kernel
  obtain ⟨⟨s, os⟩, hs, hp⟩ := (Option.any_eq_true _ _).1 hok
  simp only [Bool.and_eq_true, Bool.not_eq_true', decide_eq_true_eq, decide_eq_false_iff_not] at hp
  obtain ⟨⟨⟨hlow, hdue⟩, hno⟩, hturns⟩ := hp
  obtain ⟨⟨s', os'⟩, hs', hq⟩ := (Option.any_eq_true _ _).1 hturns
  obtain ⟨hstart, hset⟩ := Bool.and_eq_true_iff.1 hq
  obtain ⟨-, -, hlevel, -⟩ := (riscv_custom_soc_settles Ip.idle () () _ os s (.of_exec hs)).1 (fun h => hno h.1) _
    os' s' (.of_exec hs') (by decide)
  exact ⟨s, s', os', .of_exec hs', hlow, hdue,
    (hlevel (stuck_iff.2 ⟨of_decide_eq_true hstart, of_decide_eq_true hset⟩) 11 (.inr (.inr rfl))).2 hdue⟩

end CdcVp
