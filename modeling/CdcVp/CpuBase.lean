import Mathlib.Data.List.Basic

/-!
# The interrupt input of `cpu_base`

A controller drives the CPU by calls of `set_irq(cause, level)`. `IrqPort` keeps the calls in order;
`level` is what was last driven on a cause, low before the first call.
-/

namespace CdcVp

/-- A call of `cpu_base::set_irq`. -/
structure IrqCall where
  cause : Nat
  level : Bool
deriving DecidableEq, Repr

structure IrqPort where
  calls : List IrqCall := []
deriving DecidableEq, Repr

namespace IrqPort

def setIrq (c : IrqPort) (cause : Nat) (level : Bool) : IrqPort := ⟨c.calls ++ [⟨cause, level⟩]⟩

def level (c : IrqPort) (cause : Nat) : Bool :=
  (c.calls.reverse.find? fun k => k.cause = cause).elim false IrqCall.level

@[simp] theorem level_setIrq_self (c : IrqPort) (cause : Nat) (level : Bool) :
    (c.setIrq cause level).level cause = level := by
  simp [IrqPort.level, setIrq]

theorem level_setIrq_of_ne (c : IrqPort) {cause cause' : Nat} (level : Bool) (h : cause' ≠ cause) :
    (c.setIrq cause' level).level cause = c.level cause := by
  simp [IrqPort.level, setIrq, h]

/-- A call leaves every level iff it drives the level that its cause has. -/
theorem level_setIrq_eq_iff (c : IrqPort) (cause : Nat) (level : Bool) :
    (∀ k, (c.setIrq cause level).level k = c.level k) ↔ c.level cause = level := by
  constructor
  · intro h
    rw [← h cause, level_setIrq_self]
  · rintro rfl k
    by_cases hk : cause = k
    · rw [hk, level_setIrq_self]
    · exact level_setIrq_of_ne c _ hk

end IrqPort
end CdcVp
