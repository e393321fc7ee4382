import Mathlib.Data.List.Basic

/-!
# Programs with exceptions and state

Rules for `EStateM`: how a bind runs (`bind_ok`, `bind_error`) and the invariant rule of a counted
loop, `forM_range`. `Ends r Q E` is what a run ends in: a value and a state with `Q`, or an exception
and a state with `E`.
-/

namespace ExceptState

universe u

variable {ε σ α β : Type u}

theorem bind_ok {m : EStateM ε σ α} {f : α → EStateM ε σ β} {x : α} {s s' : σ} (h : m s = .ok x s') :
    (m >>= f) s = f x s' := by
  show EStateM.bind m f s = _
  simp only [EStateM.bind, h]

theorem bind_error {m : EStateM ε σ α} {f : α → EStateM ε σ β} {e : ε} {s s' : σ}
    (h : m s = .error e s') : (m >>= f) s = .error e s' := by
  show EStateM.bind m f s = _
  simp only [EStateM.bind, h]

/-- The run ended in a value and a state with `Q`, or threw in a state with `E`. -/
def Ends (r : EStateM.Result ε σ α) (Q : α → σ → Prop) (E : ε → σ → Prop) : Prop :=
  match r with
  | .ok x s => Q x s
  | .error e s => E e s

namespace Ends
variable {Q Q' : α → σ → Prop} {E E' : ε → σ → Prop} {r : EStateM.Result ε σ α}

@[simp] theorem ok_iff {x : α} {s : σ} : Ends (.ok x s) Q E ↔ Q x s := Iff.rfl
@[simp] theorem error_iff {e : ε} {s : σ} : Ends (.error e s : EStateM.Result ε σ α) Q E ↔ E e s := Iff.rfl

theorem mono (h : Ends r Q E) (hQ : ∀ x s, Q x s → Q' x s) (hE : ∀ e s, E e s → E' e s) :
    Ends r Q' E' := by
  cases r with
  | ok x s => exact hQ x s h
  | error e s => exact hE e s h

theorem bind {m : EStateM ε σ α} {f : α → EStateM ε σ β} {s : σ} {Q' : β → σ → Prop}
    (h : Ends (m s) (fun x s' => Ends (f x s') Q' E) E) : Ends ((m >>= f) s) Q' E := by
  cases hm : m s with
  | ok x s' => rw [hm] at h; rw [bind_ok hm]; exact h
  | error e s' => rw [hm] at h; rw [bind_error hm]; exact h

end Ends

/-- A loop over `0, …, n - 1`: an invariant that holds before turn `0` and is carried from each turn to
the next holds after the last, unless a turn throws. -/
theorem forM_range {f : Nat → EStateM ε σ PUnit} {n : Nat} (I : Nat → σ → Prop) (E : ε → σ → Prop)
    (step : ∀ i < n, ∀ s, I i s → Ends (f i s) (fun _ => I (i + 1)) E) {s : σ} (h0 : I 0 s) :
    Ends ((List.range n).forM f s) (fun _ => I n) E := by
  have key (k i : Nat) (hk : i + k = n) (s : σ) (hi : I i s) :
      Ends ((List.range' i k).forM f s) (fun _ => I n) E := by
    induction k generalizing i s with
    | zero => obtain rfl : i = n := by omega
              exact hi
    | succ k ih =>
      rw [List.range'_succ]
      show Ends ((f i >>= fun _ => (List.range' (i + 1) k).forM f) s) _ _
      exact .bind ((step i (by omega) s hi).mono (fun _ s' h' => ih (i + 1) (by omega) s' h')
        fun _ _ h' => h')
  rw [List.range_eq_range']
  exact key n 0 (by omega) s h0

end ExceptState
