import Mathlib.Tactic.Common

/-!
# Event notifications

An event of a discrete-event kernel holds at most one pending notification: an earlier one replaces a
later one, a later one is discarded, and a delta notification counts as the earliest. `notify` is
`notify(delay)` at time `now`; delay 0 is a delta notification.
-/

namespace ScEvent

inductive Notification
  | none
  | delta
  | timed (t : Nat)
deriving DecidableEq, Repr

namespace Notification

def notify (p : Notification) (now delay : Nat) : Notification :=
  match p with
  | delta => delta
  | none => if delay = 0 then delta else timed (now + delay)
  | timed t => if delay = 0 then delta else if t ≤ now + delay then timed t else timed (now + delay)

variable {p : Notification} {now delay : Nat}

@[simp] theorem notify_zero (p : Notification) (now : Nat) : p.notify now 0 = delta := by
  cases p <;> rfl

@[simp] theorem notify_delta (now delay : Nat) : delta.notify now delay = delta := rfl

theorem notify_none (h : 0 < delay) : none.notify now delay = timed (now + delay) := by
  rw [notify, if_neg (Nat.ne_of_gt h)]

theorem notify_ne_none (p : Notification) (now delay : Nat) : p.notify now delay ≠ none := by
  unfold notify
  intro h
  split at h
  · cases h
  · split at h <;> cases h
  · split at h
    · cases h
    · split at h <;> cases h

end Notification
end ScEvent
