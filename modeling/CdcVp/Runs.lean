import Mathlib.Data.List.Induction

/-!
# Runs of a machine

A machine takes one input at a time and answers with what can be observed of it; `none` is an input it
cannot take in that state. `Run M s is os s'` is a finite run from `s`, latest input last, with its
inputs and observations. `Run.inv` and `Run.history` are the two induction rules: an invariant of the
state, and a relation between the state and all that was observed so far. `Run.countP_le` and `Run.length_le` bound
a run by a measure. `Latched` reads a flag off a history: set by some events, cleared by others. `traced` makes the
steps themselves what is observed; `erase` drops inputs from a run, `Run.project` sees a run as one of another
machine, and `Part` as one of a component.
-/

namespace Runs

variable {σ ι ω : Type*}

abbrev Machine (σ ι ω : Type*) := σ → ι → Option (σ × List ω)

inductive Run (M : Machine σ ι ω) (s : σ) : List ι → List ω → σ → Prop
  | nil : Run M s [] [] s
  | snoc {is : List ι} {os : List ω} {s' : σ} {i : ι} {s'' : σ} {o : List ω} :
      Run M s is os s' → M s' i = some (s'', o) → Run M s (is ++ [i]) (os ++ o) s''

/-- The run on given inputs. -/
def exec (M : Machine σ ι ω) (s : σ) : List ι → Option (σ × List ω)
  | [] => some (s, [])
  | i :: is =>
    match M s i with
    | none => none
    | some (s', o) => (exec M s' is).map fun r => (r.1, o ++ r.2)

namespace Run
variable {M : Machine σ ι ω} {s s' s'' : σ} {is is' : List ι} {os os' o : List ω} {i : ι}

theorem single (h : M s i = some (s', o)) : Run M s [i] o s' := .snoc .nil h

theorem append (h : Run M s is os s') (h' : Run M s' is' os' s'') : Run M s (is ++ is') (os ++ os') s'' := by
  induction h' with
  | nil => rwa [List.append_nil, List.append_nil]
  | snoc _ hi ih => rw [← List.append_assoc, ← List.append_assoc]; exact .snoc ih hi

theorem of_exec (h : exec M s is = some (s', os)) : Run M s is os s' := by
  induction is generalizing s os with
  | nil => obtain ⟨rfl, rfl⟩ : s = s' ∧ [] = os := by simpa [exec] using h
           exact .nil
  | cons i is ih =>
    unfold exec at h
    split at h
    · cases h
    · rename_i s₁ o hi
      obtain ⟨⟨s₂, os₂⟩, h₂, he⟩ := Option.map_eq_some_iff.1 h
      cases he
      exact (single hi).append (ih h₂)

theorem exec_append (M : Machine σ ι ω) (s : σ) (is is' : List ι) : exec M s (is ++ is') =
    (exec M s is).bind fun r => (exec M r.1 is').map fun q => (q.1, r.2 ++ q.2) := by
  induction is generalizing s with
  | nil => simp [exec]
  | cons i is ih =>
    rw [List.cons_append, exec, exec]
    cases M s i with
    | none => rfl
    | some r => simp [ih, Option.map_bind, Option.bind_map, Function.comp_def]

/-- A machine is deterministic: its runs are what `exec` computes. -/
theorem exec_eq (h : Run M s is os s') : exec M s is = some (s', os) := by
  induction h with
  | nil => rfl
  | snoc _ hi ih => rw [exec_append, ih]; simp [exec, hi]

theorem of_concat (h : Run M s (is ++ [i]) os s') :
    ∃ os₁ a o, Run M s is os₁ a ∧ M a i = some (s', o) ∧ os = os₁ ++ o := by
  generalize his : is ++ [i] = js at h
  cases h with
  | nil => simp at his
  | snoc hr hi =>
    obtain ⟨rfl, he⟩ := List.append_inj' his rfl
    cases he
    exact ⟨_, _, _, hr, hi, rfl⟩

theorem inv (h : Run M s is os s') (I : σ → Prop) (h0 : I s)
    (step : ∀ a i b o, M a i = some (b, o) → I a → I b) : I s' := by
  induction h with
  | nil => exact h0
  | snoc _ hi ih => exact step _ _ _ _ hi ih

theorem inv_of_inputs (h : Run M s is os s') (P : ι → Prop) (hP : ∀ i ∈ is, P i) (I : σ → Prop) (h0 : I s)
    (step : ∀ a i b o, P i → M a i = some (b, o) → I a → I b) : I s' := by
  induction h with
  | nil => exact h0
  | snoc _ hi ih =>
    exact step _ _ _ _ (hP _ (by simp)) hi (ih fun i hi' => hP i (List.mem_append_left _ hi'))

/-- A relation between the state and the history of observations, the inputs constrained by `P`. -/
theorem history (h : Run M s is os s') (P : ι → Prop) (hP : ∀ i ∈ is, P i) (I : List ω → σ → Prop)
    (h0 : I [] s) (step : ∀ os a i b o, P i → M a i = some (b, o) → I os a → I (os ++ o) b) : I os s' := by
  induction h with
  | nil => exact h0
  | snoc _ hi ih =>
    exact step _ _ _ _ _ (hP _ (by simp)) hi (ih fun i hi' => hP i (List.mem_append_left _ hi'))

/-- A queue `q` that takes in what `inn` sees and gives out what `out` sees, in order, does so over a whole
run. -/
theorem conserve {β : Type*} (h : Run M s is os s') (P : ι → Prop) (hP : ∀ i ∈ is, P i)
    (I : σ → Prop) (h0 : I s)
    (hI : ∀ a i b o, P i → M a i = some (b, o) → I a → I b) (q : σ → List β) (inn out : ω → Option β)
    (step : ∀ a i b o, P i → M a i = some (b, o) → I a → q a ++ o.filterMap inn = o.filterMap out ++ q b) :
    q s ++ os.filterMap inn = os.filterMap out ++ q s' := by
  induction h with
  | nil => rw [List.filterMap_nil, List.filterMap_nil, List.append_nil, List.nil_append]
  | snoc hrun hi ih =>
    have hpre := fun i hi' => hP i (List.mem_append_left _ hi')
    have hlast := step _ _ _ _ (hP _ (by simp)) hi (hrun.inv_of_inputs P hpre I h0 hI)
    rw [List.filterMap_append, List.filterMap_append, ← List.append_assoc, ih hpre, List.append_assoc, hlast,
      List.append_assoc]

/-- Where some input of `P` always leads on, there are runs of any length. -/
theorem exists_length (P : ι → Prop) (I : σ → Prop) (h0 : I s)
    (step : ∀ a, I a → ∃ i b o, P i ∧ M a i = some (b, o) ∧ I b) (k : Nat) :
    ∃ is os s', Run M s is os s' ∧ (∀ i ∈ is, P i) ∧ is.length = k ∧ I s' := by
  induction k with
  | zero => exact ⟨[], [], s, .nil, List.forall_mem_nil _, rfl, h0⟩
  | succ k ih =>
    obtain ⟨is, os, a, hrun, hP, hlen, ha⟩ := ih
    obtain ⟨i, b, o, hi, hstep, hb⟩ := step a ha
    refine ⟨is ++ [i], os ++ o, b, .snoc hrun hstep, ?_, ?_, hb⟩
    · exact List.forall_mem_append.2 ⟨hP, List.forall_mem_singleton.2 hi⟩
    · rw [List.length_append, hlen, List.length_singleton]

end Run

/-! ### Steps -/

/-- A step of a machine. -/
structure Step (σ ι ω : Type*) where
  pre : σ
  input : ι
  post : σ
  obs : List ω

/-- The machine that shows its steps. -/
def traced (M : Machine σ ι ω) : Machine σ ι (Step σ ι ω) := fun s i =>
  (M s i).map fun r => (r.1, [⟨s, i, r.1, r.2⟩])

theorem exec_traced_cons {M : Machine σ ι ω} {s a : σ} {i : ι} {o : List ω} (h : M s i = some (a, o))
    (is : List ι) : exec (traced M) s (i :: is) =
      (exec (traced M) a is).map fun r => (r.1, ⟨s, i, a, o⟩ :: r.2) := by
  have hi : traced M s i = some (a, [⟨s, i, a, o⟩]) := by rw [traced, h]; rfl
  rw [exec, hi]
  rfl

theorem countP_snoc {α : Type*} (p : α → Bool) (l : List α) (a : α) :
    (l ++ [a]).countP p = l.countP p + if p a then 1 else 0 := by
  rw [List.countP_append, List.countP_singleton]

namespace Run
variable {M : Machine σ ι ω} {s s' : σ} {is : List ι} {os : List ω} {tr : List (Step σ ι ω)}

theorem of_traced (h : Run (traced M) s is tr s') : Run M s is (tr.flatMap Step.obs) s' := by
  induction h with
  | nil => exact .nil
  | snoc _ hi ih =>
    obtain ⟨⟨b, o⟩, hb, heq⟩ := Option.map_eq_some_iff.1 hi
    cases heq
    rw [List.flatMap_append, List.flatMap_singleton]
    exact .snoc ih hb

theorem exists_traced (h : Run M s is os s') :
    ∃ tr, Run (traced M) s is tr s' ∧ tr.flatMap Step.obs = os := by
  induction h with
  | nil => exact ⟨[], .nil, rfl⟩
  | snoc _ hi ih =>
    obtain ⟨tr, hrun, rfl⟩ := ih
    refine ⟨_, .snoc hrun (by rw [traced, hi]; rfl), ?_⟩
    rw [List.flatMap_append, List.flatMap_singleton]

/-- A run at one of its steps. -/
theorem split {tr₁ tr₂ : List (Step σ ι ω)} {e : Step σ ι ω}
    (h : Run (traced M) s is (tr₁ ++ e :: tr₂) s') :
    ∃ is₁ is₂, is = is₁ ++ e.input :: is₂ ∧ Run (traced M) s is₁ tr₁ e.pre ∧
      M e.pre e.input = some (e.post, e.obs) ∧ Run (traced M) e.post is₂ tr₂ s' := by
  generalize htr : tr₁ ++ e :: tr₂ = tr at h
  induction h generalizing tr₂ with
  | nil => simp at htr
  | @snoc is₀ tr₀ a i b o hrun hi ih =>
    obtain ⟨⟨b, o'⟩, hb, heq⟩ := Option.map_eq_some_iff.1 hi
    cases heq
    rcases List.eq_nil_or_concat tr₂ with rfl | ⟨tr₂, f, rfl⟩
    · obtain ⟨rfl, he⟩ := List.append_inj' htr rfl
      obtain rfl := List.singleton_inj.1 he
      exact ⟨is₀, [], rfl, hrun, hb, .nil⟩
    · rw [List.concat_eq_append, ← List.cons_append, ← List.append_assoc] at htr
      obtain ⟨hpre, hf⟩ := List.append_inj' htr rfl
      obtain rfl := List.singleton_inj.1 hf
      obtain ⟨is₁, is₂, rfl, h₁, he, h₂⟩ := ih hpre
      refine ⟨is₁, is₂ ++ [i], by simp, h₁, he, ?_⟩
      rw [List.concat_eq_append]
      exact .snoc h₂ hi

/-- A step of a run is one of the machine. -/
theorem step_of_mem {e : Step σ ι ω} (h : Run (traced M) s is tr s') (he : e ∈ tr) :
    M e.pre e.input = some (e.post, e.obs) := by
  obtain ⟨tr₁, tr₂, rfl⟩ := List.append_of_mem he
  obtain ⟨is₁, is₂, -, -, hstep, -⟩ := h.split
  exact hstep

/-- A run at its last step. -/
theorem last {e : Step σ ι ω} (h : Run (traced M) s is (tr ++ [e]) s') :
    ∃ is₁, Run (traced M) s is₁ tr e.pre ∧ M e.pre e.input = some (e.post, e.obs) ∧ s' = e.post := by
  obtain ⟨is₁, is₂, -, h₁, he, h₂⟩ := h.split
  refine ⟨is₁, h₁, he, ?_⟩
  generalize hn : ([] : List (Step σ ι ω)) = os at h₂
  cases h₂ with
  | nil => rfl
  | snoc _ hi =>
    obtain ⟨r, -, heq⟩ := Option.map_eq_some_iff.1 hi
    cases heq
    simp at hn

/-- A relation between the state and the steps that led to it. -/
theorem trace (h : Run (traced M) s is tr s') (I : List (Step σ ι ω) → σ → Prop) (h0 : I [] s)
    (step : ∀ tr a i b o, M a i = some (b, o) → I tr a → I (tr ++ [⟨a, i, b, o⟩]) b) : I tr s' := by
  induction h with
  | nil => exact h0
  | snoc _ hi ih =>
    obtain ⟨⟨b, o⟩, hb, heq⟩ := Option.map_eq_some_iff.1 hi
    cases heq
    exact step _ _ _ _ _ hb ih

theorem length_traced (h : Run (traced M) s is tr s') : tr.length = is.length := by
  induction h with
  | nil => rfl
  | snoc _ hi ih =>
    obtain ⟨⟨b, o⟩, hb, heq⟩ := Option.map_eq_some_iff.1 hi
    cases heq
    rw [List.length_append, List.length_append, ih, List.length_singleton, List.length_singleton]

/-- The steps of a run that decrease a measure no step increases are no more than the measure. -/
theorem countP_le (h : Run (traced M) s is tr s') (P : ι → Prop) (hP : ∀ i ∈ is, P i) (I : σ → Prop) (h0 : I s)
    (μ : σ → Nat) (busy : Step σ ι ω → Bool) (step : ∀ a i b o, P i → M a i = some (b, o) → I a →
      I b ∧ (μ b + if busy ⟨a, i, b, o⟩ then 1 else 0) ≤ μ a) : I s' ∧ tr.countP busy + μ s' ≤ μ s := by
  induction h with
  | nil => exact ⟨h0, by simp⟩
  | snoc _ hi ih =>
    obtain ⟨⟨b, o⟩, hb, heq⟩ := Option.map_eq_some_iff.1 hi
    cases heq
    obtain ⟨ha, hle⟩ := ih fun i hi' => hP i (List.mem_append_left _ hi')
    obtain ⟨hI, hlt⟩ := step _ _ _ _ (hP _ (by simp)) hb ha
    refine ⟨hI, ?_⟩
    rw [countP_snoc]
    dsimp only
    omega

/-- A run whose inputs decrease a measure is no longer than the measure. -/
theorem length_le (h : Run M s is os s') (P : ι → Prop) (hP : ∀ i ∈ is, P i) (I : σ → Prop) (h0 : I s)
    (μ : σ → Nat) (step : ∀ a i b o, P i → M a i = some (b, o) → I a → I b ∧ μ b < μ a) :
    I s' ∧ is.length + μ s' ≤ μ s := by
  obtain ⟨tr, htr, -⟩ := h.exists_traced
  obtain ⟨hI, hle⟩ := htr.countP_le P hP I h0 μ (fun _ => true) step
  refine ⟨hI, ?_⟩
  rwa [List.countP_true, htr.length_traced] at hle

end Run

/-! ### Runs seen through a function -/

section
variable {τ κ : Type*} {M : Machine σ ι ω} {N : Machine τ ι κ} {s s' : σ} {is : List ι}
variable {tr : List (Step σ ι ω)}

/-- A run seen through `f` and `g` is a run of `N`, less the inputs that leave what is seen. -/
theorem Run.project (f : σ → τ) (g : List ω → List κ) (keep : ι → Bool) (I : σ → Prop)
    (Ok : Step σ ι ω → Prop) (h : Run (traced M) s is tr s') (hok : ∀ e ∈ tr, Ok e) (h0 : I s)
    (step : ∀ a i b o, M a i = some (b, o) → Ok ⟨a, i, b, o⟩ → I a → I b ∧
      (keep i = true → N (f a) i = some (f b, g o)) ∧ (keep i = false → f b = f a ∧ g o = [])) :
    I s' ∧ Run N (f s) (is.filter keep) (tr.flatMap fun e => g e.obs) (f s') := by
  induction h with
  | nil => exact ⟨h0, .nil⟩
  | @snoc is tr a i b o hrun hi ih =>
    obtain ⟨⟨b, o⟩, hb, heq⟩ := Option.map_eq_some_iff.1 hi
    cases heq
    rw [List.forall_mem_append, List.forall_mem_singleton] at hok
    obtain ⟨ha, hpre⟩ := ih hok.1
    obtain ⟨hI, hkeep, hdrop⟩ := step a i b o hb hok.2 ha
    refine ⟨hI, ?_⟩
    rw [List.filter_append, List.flatMap_append, List.flatMap_singleton]
    cases hk : keep i with
    | true =>
      rw [List.filter_cons_of_pos hk, List.filter_nil]
      exact .snoc hpre (hkeep hk)
    | false =>
      obtain ⟨hf, hg⟩ := hdrop hk
      rw [List.filter_cons_of_neg (by simp [hk]), List.filter_nil, List.append_nil, hf, hg, List.append_nil]
      exact hpre

end

/-! ### Parts of a machine -/

section
variable {τ γ κ : Type*} {M : Machine σ ι ω} {N : Machine τ γ κ} {f : σ → τ} {on : ι → Option γ}
variable {s s' : σ} {i : ι} {is : List ι} {o os : List ω}

/-- The part of the state that `f` sees moves as `N` does: an input is `on i` to it, or leaves it alone. -/
structure Part (M : Machine σ ι ω) (N : Machine τ γ κ) (f : σ → τ) (on : ι → Option γ) : Prop where
  takes {s s' : σ} {i : ι} {o : List ω} (j : γ) :
    M s i = some (s', o) → on i = some j → ∃ o', N (f s) j = some (f s', o')
  keeps {s s' : σ} {i : ι} {o : List ω} : M s i = some (s', o) → on i = none → f s' = f s

/-- What the part shows of a step of the whole. -/
def partObs (N : Machine τ γ κ) (f : σ → τ) (on : ι → Option γ) (e : Step σ ι ω) : List κ :=
  (((on e.input).bind (N (f e.pre))).map Prod.snd).getD []

namespace Part

/-- A run of the whole is a run of the part, on what its inputs are there. -/
theorem run_traced {tr : List (Step σ ι ω)} (hp : Part M N f on) (h : Run (traced M) s is tr s') :
    Run N (f s) (is.filterMap on) (tr.flatMap (partObs N f on)) (f s') := by
  induction h with
  | nil => exact .nil
  | @snoc is tr a i b o _ hi ih =>
    obtain ⟨⟨b, o⟩, hb, heq⟩ := Option.map_eq_some_iff.1 hi
    cases heq
    rw [List.filterMap_append, List.flatMap_append, List.flatMap_singleton]
    cases hon : on i with
    | none =>
      have hnil : [i].filterMap on = [] := by simp [hon]
      have hobs : partObs N f on ⟨a, i, b, o⟩ = [] := by simp [partObs, hon]
      rw [hnil, hobs, List.append_nil, List.append_nil, hp.keeps hb hon]
      exact ih
    | some j =>
      obtain ⟨o', hj⟩ := hp.takes j hb hon
      have hone : [i].filterMap on = [j] := by simp [hon]
      have hobs : partObs N f on ⟨a, i, b, o⟩ = o' := by simp [partObs, hon, hj]
      rw [hone, hobs]
      exact .snoc ih hj

theorem run (hp : Part M N f on) (h : Run M s is os s') : ∃ os', Run N (f s) (is.filterMap on) os' (f s') := by
  obtain ⟨tr, htr, -⟩ := h.exists_traced
  exact ⟨_, hp.run_traced htr⟩

theorem step_inv (hp : Part M N f on) {I : τ → Prop} (hI : ∀ a j b o, N a j = some (b, o) → I a → I b)
    (h : M s i = some (s', o)) (hs : I (f s)) : I (f s') := by
  cases hon : on i with
  | none => rwa [hp.keeps h hon]
  | some j =>
    obtain ⟨o', hj⟩ := hp.takes j h hon
    exact hI _ _ _ _ hj hs

end Part
end

/-! ### Inputs without effect -/

section
variable {M : Machine σ ι ω} {s s' : σ} {is : List ι} {os : List ω} {skip : σ → ι → Bool}

/-- The inputs of a run less those that `skip` marks in the state they come in. -/
def erase (M : Machine σ ι ω) (skip : σ → ι → Bool) (s : σ) : List ι → List ι
  | [] => []
  | i :: is =>
    match M s i with
    | none => []
    | some (s', _) => if skip s i then erase M skip s' is else i :: erase M skip s' is

/-- Erasing inputs without effect leaves the observations and the state. -/
theorem Run.erase (hskip : ∀ a i b o, skip a i = true → M a i = some (b, o) → b = a ∧ o = [])
    (h : Run M s is os s') : Run M s (erase M skip s is) os s' := by
  have hx := h.exec_eq
  clear h
  induction is generalizing s os with
  | nil =>
    cases hx
    exact .nil
  | cons i is ih =>
    unfold exec at hx
    split at hx
    · cases hx
    · rename_i b o hi
      obtain ⟨⟨c, os'⟩, hc, heq⟩ := Option.map_eq_some_iff.1 hx
      cases heq
      unfold Runs.erase
      rw [hi]
      dsimp only
      split
      · rename_i hs
        obtain ⟨rfl, rfl⟩ := hskip s i b o hs hi
        exact ih hc
      · exact (single hi).append (ih hc)

/-- None of the inputs that are left is marked. -/
theorem not_skip_of_erase (hskip : ∀ a i b o, skip a i = true → M a i = some (b, o) → b = a ∧ o = [])
    {tr : List (Step σ ι ω)} (h : Run (traced M) s (erase M skip s is) tr s') :
    ∀ e ∈ tr, skip e.pre e.input = false := by
  have hx := h.exec_eq
  clear h
  induction is generalizing s tr with
  | nil =>
    cases hx
    exact List.forall_mem_nil _
  | cons i is ih =>
    unfold erase at hx
    cases hi : M s i with
    | none =>
      rw [hi] at hx
      cases hx
      exact List.forall_mem_nil _
    | some r =>
      obtain ⟨b, o⟩ := r
      rw [hi] at hx
      dsimp only at hx
      split at hx
      · rename_i hs
        obtain ⟨rfl, rfl⟩ := hskip s i b o hs hi
        exact ih hx
      · rename_i hs
        rw [exec_traced_cons hi] at hx
        obtain ⟨⟨c, tr'⟩, hc, heq⟩ := Option.map_eq_some_iff.1 hx
        cases heq
        exact List.forall_mem_cons.2 ⟨Bool.eq_false_iff.2 hs, ih hc⟩

end

/-! ### Flags -/

section
variable {sets clears : ω → Prop} {h : List ω} {e : ω}

/-- Some event of the history set the flag and none cleared it since. -/
def Latched (sets clears : ω → Prop) (h : List ω) : Prop :=
  ∃ h₁ e h₂, h = h₁ ++ e :: h₂ ∧ sets e ∧ ∀ c ∈ h₂, ¬ clears c

/-- `Latched`, where it takes the events before to tell what sets the flag. -/
def LatchedAt (sets : List ω → ω → Prop) (clears : ω → Prop) (h : List ω) : Prop :=
  ∃ h₁ e h₂, h = h₁ ++ e :: h₂ ∧ sets h₁ e ∧ ∀ c ∈ h₂, ¬ clears c

theorem not_latchedAt_nil {sets : List ω → ω → Prop} : ¬ LatchedAt sets clears [] := by
  rintro ⟨h₁, e, h₂, he, -⟩
  simp at he

theorem latchedAt_snoc {sets : List ω → ω → Prop} :
    LatchedAt sets clears (h ++ [e]) ↔ sets h e ∨ LatchedAt sets clears h ∧ ¬ clears e := by
  constructor
  · rintro ⟨h₁, a, h₂, he, ha, hc⟩
    rcases List.eq_nil_or_concat h₂ with rfl | ⟨h₂, c, rfl⟩
    · obtain ⟨rfl, hae⟩ := List.append_inj' he rfl
      rw [List.singleton_inj.1 hae]
      exact .inl ha
    · rw [List.concat_eq_append, ← List.cons_append, ← List.append_assoc] at he
      obtain ⟨rfl, hce⟩ := List.append_inj' he rfl
      rw [List.singleton_inj.1 hce]
      exact .inr ⟨⟨h₁, a, h₂, rfl, ha, fun x hx => hc x (by simp [hx])⟩, hc c (by simp)⟩
  · rintro (hs | ⟨⟨h₁, a, h₂, rfl, ha, hc⟩, hne⟩)
    · exact ⟨h, e, [], rfl, hs, by simp⟩
    · refine ⟨h₁, a, h₂ ++ [e], by simp, ha, ?_⟩
      intro c hmem
      rcases List.mem_append.1 hmem with hmem | hmem
      · exact hc c hmem
      · rwa [List.mem_singleton.1 hmem]

/-- An event that neither sets nor clears the flag. -/
theorem latchedAt_keep {sets : List ω → ω → Prop} (hs : ¬ sets h e) (hc : ¬ clears e) :
    LatchedAt sets clears (h ++ [e]) ↔ LatchedAt sets clears h :=
  latchedAt_snoc.trans ((or_iff_right hs).trans (and_iff_left hc))

theorem not_latchedAt_of_clears {sets : List ω → ω → Prop} (hs : ¬ sets h e) (hc : clears e) :
    ¬ LatchedAt sets clears (h ++ [e]) := by
  intro hl
  rcases latchedAt_snoc.1 hl with hl | ⟨-, hl⟩
  · exact hs hl
  · exact hl hc

theorem not_latched_nil : ¬ Latched sets clears [] := not_latchedAt_nil

theorem latched_snoc : Latched sets clears (h ++ [e]) ↔ sets e ∨ Latched sets clears h ∧ ¬ clears e :=
  latchedAt_snoc

theorem latched_keep (hs : ¬ sets e) (hc : ¬ clears e) :
    Latched sets clears (h ++ [e]) ↔ Latched sets clears h := latchedAt_keep hs hc

theorem not_latched_of_clears (hs : ¬ sets e) (hc : clears e) : ¬ Latched sets clears (h ++ [e]) :=
  not_latchedAt_of_clears hs hc

/-- After an event that clears the flag, it is up iff the event sets it again. -/
theorem latched_of_clears (hc : clears e) : Latched sets clears (h ++ [e]) ↔ sets e :=
  latched_snoc.trans (or_iff_left fun hl => hl.2 hc)

/-- A flag that is up although `e` cleared it was set after `e`. -/
theorem Latched.set_after {h₁ h₂ : List ω} (hl : Latched sets clears (h₁ ++ e :: h₂)) (hc : clears e)
    (hs : ¬ sets e) : ∃ s ∈ h₂, sets s := by
  induction h₂ using List.reverseRecOn with
  | nil =>
    rcases latched_snoc.1 hl with h | ⟨-, h⟩
    · exact absurd h hs
    · exact absurd hc h
  | append_singleton h₂ x ih =>
    rw [← List.cons_append, ← List.append_assoc] at hl
    rcases latched_snoc.1 hl with h | ⟨h, -⟩
    · exact ⟨x, by simp, h⟩
    · obtain ⟨s, hmem, hset⟩ := ih h
      exact ⟨s, List.mem_append_left _ hmem, hset⟩

/-- The flag is only set when it is down. -/
def SetsFresh (sets clears : ω → Prop) (h : List ω) : Prop :=
  ∀ h₁ e h₂, h = h₁ ++ e :: h₂ → sets e → ¬ Latched sets clears h₁

theorem SetsFresh.nil : SetsFresh sets clears [] := by
  intro h₁ e h₂ he
  simp at he

theorem SetsFresh.snoc (hf : SetsFresh sets clears h) (he : sets e → ¬ Latched sets clears h) :
    SetsFresh sets clears (h ++ [e]) := by
  intro h₁ a h₂ heq ha
  rcases List.eq_nil_or_concat h₂ with rfl | ⟨h₂, c, rfl⟩
  · obtain ⟨rfl, hae⟩ := List.append_inj' heq rfl
    exact he ((List.singleton_inj.1 hae) ▸ ha)
  · rw [List.concat_eq_append, ← List.cons_append, ← List.append_assoc] at heq
    exact hf h₁ a h₂ (List.append_inj' heq rfl).1 ha

theorem setsFresh_snoc :
    SetsFresh sets clears (h ++ [e]) ↔ SetsFresh sets clears h ∧ (sets e → ¬ Latched sets clears h) :=
  ⟨fun hf => ⟨fun h₁ a h₂ heq => hf h₁ a (h₂ ++ [e]) (by simp [heq]), hf h e [] rfl⟩,
    fun hf => hf.1.snoc hf.2⟩

end

end Runs
