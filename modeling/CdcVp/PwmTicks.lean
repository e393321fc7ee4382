import CdcVp.Pwm

/-!
# The ticks of the PWM

Over a run in which the registers hold, the ticks with the counter enabled are those of `counters`, whatever is
read in between. The registers as numbers: where the machine's arithmetic wraps or is cut to 16 bits, the lemmas
say so.
-/

namespace CdcVp
open FlatStore LittleEndian Runs

namespace PwmRegs
variable {r : PwmRegs} {c : UInt16} {n : Nat}

/-- The counter after `n` ticks. -/
def counters (r : PwmRegs) (c : UInt16) : Nat → UInt16
  | 0 => c
  | n + 1 => r.nextCounter (r.counters c n)

theorem toNat_nextCounter (r : PwmRegs) (c : UInt16) :
    (r.nextCounter c).toNat = (c.toNat + 1) % r.period.toNat % 2 ^ 16 := by
  have hc := c.toNat_lt
  have hsum : (c.toUInt32 + 1).toNat = c.toNat + 1 := by
    rw [UInt32.toNat_add, UInt16.toNat_toUInt32, UInt32.toNat_one]
    exact Nat.mod_eq_of_lt (by omega)
  rw [nextCounter, UInt32.toNat_toUInt16, UInt32.toNat_mod, hsum]

theorem toNat_shifted (r : PwmRegs) (c : UInt16) : (r.shifted c).toNat =
    (c.toNat + r.period.toNat + (2 ^ 32 - r.phaseDelay.toNat)) % 2 ^ 32 % r.period.toNat % 2 ^ 16 := by
  rw [shifted, UInt32.toNat_toUInt16, UInt32.toNat_mod, UInt32.toNat_sub, UInt32.toNat_add,
    UInt16.toNat_toUInt32, Nat.add_mod_mod, Nat.add_comm]

theorem pwm_iff (r : PwmRegs) (c : UInt16) :
    r.pwm c = true ↔ r.pwmEnabled = true ∧ (r.shifted c).toNat < r.dutyCycle.toNat := by
  rw [pwm, Bool.and_eq_true, decide_eq_true_eq, UInt32.lt_iff_toNat_lt, UInt16.toNat_toUInt32]

/-- A period that is not zero and that a 16-bit counter can count. -/
def Countable (r : PwmRegs) : Prop := 1 ≤ r.period.toNat ∧ r.period.toNat ≤ 2 ^ 16

theorem Countable.nextCounter (h : r.Countable) (c : UInt16) :
    (r.nextCounter c).toNat = (c.toNat + 1) % r.period.toNat := by
  have hlt : (c.toNat + 1) % r.period.toNat < r.period.toNat := Nat.mod_lt _ h.1
  rw [toNat_nextCounter]
  exact Nat.mod_eq_of_lt (hlt.trans_le h.2)

/-- A delay that the position does not wrap below zero for. -/
theorem Countable.shifted (h : r.Countable) (hF : r.phaseDelay.toNat ≤ c.toNat + r.period.toNat) :
    (r.shifted c).toNat = (c.toNat + r.period.toNat - r.phaseDelay.toNat) % r.period.toNat := by
  have hc := c.toNat_lt
  have hp := h.2
  have hsum : c.toNat + r.period.toNat + (2 ^ 32 - r.phaseDelay.toNat) =
      c.toNat + r.period.toNat - r.phaseDelay.toNat + 2 ^ 32 := by
    have := r.phaseDelay.toNat_lt
    omega
  have hlt : (c.toNat + r.period.toNat - r.phaseDelay.toNat) % r.period.toNat < r.period.toNat :=
    Nat.mod_lt _ h.1
  rw [toNat_shifted, hsum, Nat.add_mod_right, Nat.mod_eq_of_lt (a := c.toNat + _ - _) (by omega)]
  exact Nat.mod_eq_of_lt (hlt.trans_le hp)

/-- The counter walks through the residues of the period from wherever it is. -/
theorem Countable.counters (h : r.Countable) (c : UInt16) (n : Nat) :
    (r.counters c (n + 1)).toNat = (c.toNat + 1 + n) % r.period.toNat := by
  induction n with
  | zero => exact h.nextCounter c
  | succ n ih =>
    have hstep := h.nextCounter (r.counters c (n + 1))
    rw [ih, Nat.mod_add_mod] at hstep
    exact hstep

end PwmRegs

namespace Pwm
variable {s s' : Pwm} {op : Op} {o : List Obs} {tr : List (Step Pwm Op Obs)}

/-- `pwm_thread` is about to run its loop with the counter enabled. -/
def TickDue (s : Pwm) : Prop := s.pwmThread = .woken ∧ s.reg.counterEnable = true

instance (s : Pwm) : Decidable s.TickDue := inferInstanceAs (Decidable (_ ∧ _))

/-- The step is a tick: the loop runs with the counter enabled. -/
def IsTick (e : Step Pwm Op Obs) : Prop := e.input = .pwmThread ∧ e.pre.TickDue

instance (e : Step Pwm Op Obs) : Decidable (IsTick e) := inferInstanceAs (Decidable (_ ∧ _))

/-- The ticks of a history: what each leaves in the counter, and the value it drives `pwm_out` to. -/
def ticks (tr : List (Step Pwm Op Obs)) : List (UInt16 × Bool) :=
  (tr.filter fun e => IsTick e).map fun e => (e.post.counter, e.post.pwmOutNext)

theorem ticks_snoc (tr : List (Step Pwm Op Obs)) (e : Step Pwm Op Obs) :
    ticks (tr ++ [e]) = ticks tr ++ if IsTick e then [(e.post.counter, e.post.pwmOutNext)] else [] := by
  rw [ticks, List.filter_append, List.map_append, ← ticks, List.filter_singleton]
  by_cases he : IsTick e <;> simp [he]

/-- The first `n` ticks from counter `c`. -/
def ticksFrom (r : PwmRegs) (c : UInt16) (n : Nat) : List (UInt16 × Bool) :=
  (List.range n).map fun i => (r.counters c (i + 1), r.level (r.counters c (i + 1)))

theorem ticksFrom_succ (r : PwmRegs) (c : UInt16) (n : Nat) : ticksFrom r c (n + 1) =
    ticksFrom r c n ++ [(r.counters c (n + 1), r.level (r.counters c (n + 1)))] := by
  rw [ticksFrom, List.range_succ, List.map_append, List.map_singleton, ticksFrom]

/-- The PWM after `n` ticks from `s` with the registers held. -/
structure Ticked (s : Pwm) (tr : List (Step Pwm Op Obs)) (n : Nat) (s' : Pwm) : Prop where
  reg : s'.reg = s.reg
  counter : s'.counter = s.reg.counters s.counter n
  ticks : ticks tr = ticksFrom s.reg s.counter n

namespace Ticked
variable {s₀ : Pwm} {n : Nat}

theorem keep {e : Step Pwm Op Obs} (h : Ticked s₀ tr n s) (hr : s'.reg = s.reg) (hc : s'.counter = s.counter)
    (hno : ¬ IsTick e) : ∃ n, Ticked s₀ (tr ++ [e]) n s' := by
  refine ⟨n, hr.trans h.reg, hc.trans h.counter, ?_⟩
  rw [ticks_snoc, if_neg hno, List.append_nil]
  exact h.ticks

theorem step (h : Ticked s₀ tr n s) (hm : Move s op s' o) (held : s'.reg = s₀.reg) :
    ∃ n, Ticked s₀ (tr ++ [⟨s, op, s', o⟩]) n s' := by
  have hreg : s'.reg = s.reg := held.trans h.reg.symm
  cases hm with
  | bus t d hb =>
    cases hb with
    | quiet | read | write => exact h.keep hreg rfl (by simp [IsTick])
  | start hs => exact h.keep rfl rfl (by simp [IsTick, TickDue, hs])
  | off woken hoff => exact h.keep rfl rfl (by simp [IsTick, TickDue, hoff])
  | delta | advance => exact h.keep rfl rfl (by simp [IsTick])
  | tick woken on hp =>
    have hcount : s.reg.nextCounter s.counter = s₀.reg.counters s₀.counter (n + 1) := by
      rw [h.reg, h.counter]
      rfl
    refine ⟨n + 1, h.reg, hcount, ?_⟩
    rw [ticks_snoc, if_pos ⟨rfl, woken, on⟩, ticksFrom_succ, h.ticks, ← hcount, ← h.reg]

end Ticked

/-- Over a run with the registers held. -/
theorem ticked_of_run {is : List Op} (hrun : Run (traced machine) s is tr s')
    (held : ∀ e ∈ tr, e.post.reg = s.reg) : Ticked s tr (ticks tr).length s' := by
  have key : ∃ n, Ticked s tr n s' := by
    refine hrun.trace (fun tr a => (∀ e ∈ tr, e.post.reg = s.reg) → ∃ n, Ticked s tr n a)
      (fun _ => ⟨0, rfl, rfl, rfl⟩) ?_ held
    intro tr a i b o hi ih held
    obtain ⟨n, hn⟩ := ih fun e he => held e (List.mem_append_left _ he)
    exact hn.step (machine_move hi) (held ⟨a, i, b, o⟩ (by simp))
  obtain ⟨n, hn⟩ := key
  have hlen : (ticks tr).length = n := by rw [hn.ticks, ticksFrom, List.length_map, List.length_range]
  rw [hlen]
  exact hn

/-! ### The output between the ticks -/

/-- Whenever time passes after a tick and before the next, `pwm_out` has the value the tick drove it to. -/
def Shown (tr : List (Step Pwm Op Obs)) : Prop :=
  ∀ tr₁ tr₂ tr₃ e f time, tr = tr₁ ++ e :: (tr₂ ++ f :: tr₃) → IsTick e → (∀ g ∈ tr₂, ¬ IsTick g) →
    f.input = .advance time → f.post.pwmOut = e.post.pwmOutNext

theorem pwmOutNext_of_not_tick (hm : Move s op s' o) (hno : ¬ IsTick ⟨s, op, s', o⟩) :
    s'.pwmOutNext = s.pwmOutNext := by
  cases hm with
  | bus t d hb =>
    cases hb with
    | quiet | read | write => rfl
  | start | off | delta | advance => rfl
  | tick woken on => exact absurd ⟨rfl, woken, on⟩ hno

theorem pwmOutNext_of_run {is : List Op} (hrun : Run (traced machine) s is tr s') (hno : ∀ e ∈ tr, ¬ IsTick e) :
    s'.pwmOutNext = s.pwmOutNext := by
  refine hrun.trace (fun tr a => (∀ e ∈ tr, ¬ IsTick e) → a.pwmOutNext = s.pwmOutNext) (fun _ => rfl) ?_ hno
  intro tr a i b o hi ih hno
  have hlast := pwmOutNext_of_not_tick (machine_move hi) (hno _ (by simp))
  exact hlast.trans (ih fun e he => hno e (List.mem_append_left _ he))

/-- Time passes only when the update phase is over. -/
theorem pwmOut_of_advance {time : Nat} (hm : Move s (.advance time) s' o) : s'.pwmOut = s.pwmOutNext := by
  cases hm with
  | advance _ wake waiting settled => exact settled.2

theorem shown_of_run {is : List Op} (hrun : Run (traced machine) s is tr s') : Shown tr := by
  rintro tr₁ tr₂ tr₃ e f time rfl - hno hf
  obtain ⟨is₁, is₂, -, -, -, hafter⟩ := hrun.split
  obtain ⟨is₃, is₄, -, hbetween, hstep, -⟩ := hafter.split
  rw [hf] at hstep
  exact (pwmOut_of_advance (machine_move hstep)).trans (pwmOutNext_of_run hbetween hno)

/-! ### Every counter is reached -/

def pwmWrite (addr : UInt64) (data : UInt32) : Op :=
  .transport ⟨.write, addr, some (bytes 4 data.toNat), 4, .incomplete, false⟩ 0

theorem machine_pwmWrite {addr : UInt64} {data : UInt32} {reg : PwmRegs} (h : s.reg.write addr data = some reg) :
    machine s (pwmWrite addr data) = some ({ s with reg := reg }, []) := by
  have hvalue : UInt32.ofNat (value ((bytes 4 data.toNat).take 4)) = data := by
    rw [List.take_of_length_le (length_bytes 4 _).le, value_bytes_of_lt data.toNat_lt, UInt32.ofNat_toNat]
  simp only [machine, pwmWrite, bTransport, if_true, Option.getD_some, hvalue, h, length_bytes, lt_irrefl, if_false,
    Option.map_some]

/-- All six registers written. -/
def writeAll (r : PwmRegs) : List Op :=
  [pwmWrite 0x08 r.cfg, pwmWrite 0x0C r.pwmEn, pwmWrite 0x10 r.invert, pwmWrite 0x14 r.phaseDelay,
    pwmWrite 0x2C r.dutyCycle, pwmWrite 0x30 r.period]

theorem run_writeAll (s : Pwm) (r : PwmRegs) : Run machine s (writeAll r) [] { s with reg := r } := by
  have hwrite : ∀ (a : Pwm) (addr : UInt64) (data : UInt32) (reg : PwmRegs), a.reg.write addr data = some reg →
      Run machine a [pwmWrite addr data] [] { a with reg := reg } := fun _ _ _ _ h => .single (machine_pwmWrite h)
  have hcfg := hwrite s 0x08 r.cfg _ rfl
  have hen := hcfg.append (hwrite _ 0x0C r.pwmEn _ rfl)
  have hinv := hen.append (hwrite _ 0x10 r.invert _ rfl)
  have hphase := hinv.append (hwrite _ 0x14 r.phaseDelay _ rfl)
  have hduty := hphase.append (hwrite _ 0x2C r.dutyCycle _ rfl)
  exact hduty.append (hwrite _ 0x30 r.period _ rfl)

/-- The rest of the wait. -/
theorem run_wake {wake : Nat} (waiting : s.pwmThread = .waiting wake) (later : s.now < wake) :
    Run machine s [.delta, .advance wake] [] { s.deltaCycle with now := wake, pwmThread := .woken } := by
  have hdelta : machine s .delta = some (s.deltaCycle, []) := by
    simp only [machine, waiting, PwmThread.runnable, Bool.false_eq_true, if_false]
  have hsettled : s.deltaCycle.Settled ∧ s.deltaCycle.now < wake ∧ wake ≤ wake := by
    refine ⟨⟨?_, rfl⟩, later, le_rfl⟩
    rw [show s.deltaCycle.pwmThread = .waiting wake from waiting]
    rfl
  have hadvance : machine s.deltaCycle (.advance wake) =
      some ({ s.deltaCycle with now := wake, pwmThread := .woken }, []) := by
    simp only [machine, show s.deltaCycle.pwmThread = .waiting wake from waiting, if_pos hsettled, if_true]
  exact (Run.single hdelta).append (.single hadvance)

/-- From power-up, with registers that count. -/
theorem reaches_counter {r : PwmRegs} (on : r.counterEnable = true) (hp : r.period ≠ 0) (n : Nat) :
    ∃ is os s, Run machine new is os s ∧ s.pwmThread = .woken ∧ s.reg = r ∧ s.counter = r.counters 0 n := by
  induction n with
  | zero =>
    have hstart : Run machine new [.pwmThread] [] { new with pwmThread := .waiting 10000 } := .single rfl
    have hset := hstart.append (run_writeAll _ r)
    exact ⟨_, _, _, hset.append (run_wake rfl (show 0 < 10000 by decide)), rfl, rfl, rfl⟩
  | succ n ih =>
    obtain ⟨is, os, s, hrun, woken, rfl, hc⟩ := ih
    have htick := hrun.snoc (machine_tick woken on hp)
    refine ⟨_, _, _, htick.append (run_wake rfl (Nat.lt_add_of_pos_right (by decide))), rfl, rfl, ?_⟩
    exact congrArg s.reg.nextCounter hc

end Pwm
end CdcVp
