import CdcVp.Runs

/-!
# Programs on a machine

A `Prog` acts on a machine by inputs, goes on by what it observes of each, and may throw. `Exec M B p` runs it while
`B` comes in between its own inputs: `inputs E` is other inputs of the machine, and `traps` is runs of a handler as
well, which shares variables with the program. `Triple` is the rule of pre- and postconditions. An assertion is about
the variables, the steps so far and the state, and it has to be `Stable`: what comes in between keeps it.
-/

namespace Programs
open Runs

universe u

/-- A program with inputs `ι`, observations `ω`, exceptions `ε` and values in `α`. -/
inductive Prog (ι ω ε α : Type*)
  | ret (a : α)
  | throw (e : ε)
  | call (i : ι) (k : List ω → Prog ι ω ε α)

variable {σ ι ω ε α β κ ν μ : Type*}

namespace Prog

def bind (p : Prog ι ω ε α) (f : α → Prog ι ω ε β) : Prog ι ω ε β :=
  match p with
  | ret a => f a
  | throw e => .throw e
  | call i k => .call i fun o => (k o).bind f

instance instMonad : Monad (Prog.{_, _, _, u} ι ω ε) where
  pure := ret
  bind := bind

/-- The programs of a list, one after another. -/
def forEach (f : α → Prog ι ω ε Unit) : List α → Prog ι ω ε Unit
  | [] => ret ()
  | a :: as => (f a).bind fun _ => forEach f as

/-- The program's run with nothing in between: its steps, how it ends and where. -/
def alone (M : Machine σ ι ω) : Prog ι ω ε α → σ → Option (List (Step σ ι ω) × Except ε α × σ)
  | ret a, s => some ([], .ok a, s)
  | throw e, s => some ([], .error e, s)
  | call i k, s =>
    (M s i).bind fun m => ((k m.2).alone M m.1).map fun q => (⟨s, i, m.1, m.2⟩ :: q.1, q.2)

/-- Every input that the program gives satisfies `P`. -/
def Gives (P : ι → Prop) : Prog ι ω ε α → Prop
  | ret _ => True
  | throw _ => True
  | call i k => P i ∧ ∀ o, (k o).Gives P

theorem gives_true (p : Prog ι ω ε α) : p.Gives fun _ => True := by
  induction p with
  | ret a => exact trivial
  | throw e => exact trivial
  | call i k ih => exact ⟨trivial, ih⟩

theorem Gives.bind {P : ι → Prop} {p : Prog ι ω ε α} {f : α → Prog ι ω ε β} (hp : p.Gives P)
    (hf : ∀ a, (f a).Gives P) : (p.bind f).Gives P := by
  induction p with
  | ret a => exact hf a
  | throw e => exact trivial
  | call i k ih => exact ⟨hp.1, fun o => ih o (hp.2 o)⟩

theorem Gives.forEach {P : ι → Prop} {f : α → Prog ι ω ε Unit} (hf : ∀ a, (f a).Gives P) (as : List α) :
    (forEach f as).Gives P := by
  induction as with
  | nil => exact trivial
  | cons a as ih => exact (hf a).bind fun _ => ih

end Prog

/-- What comes in between the inputs of a program: it `goes` on from the variables `ν` and the state, or `stops` the
program by an exception. -/
structure Between (σ ι ω ε ν : Type*) where
  goes : ν → σ → List (Step σ ι ω) → ν → σ → Prop
  stops : ν → σ → List (Step σ ι ω) → ε → ν → σ → Prop

/-- `p` runs from `s` by the steps `tr`, its own and what comes in between, and ends. -/
inductive Exec (M : Machine σ ι ω) (B : Between σ ι ω ε ν) :
    Prog ι ω ε α → ν → σ → List (Step σ ι ω) → Except ε α → ν → σ → Prop
  | ret (a : α) (v : ν) (s : σ) : Exec M B (.ret a) v s [] (.ok a) v s
  | throw (e : ε) (v : ν) (s : σ) : Exec M B (.throw e) v s [] (.error e) v s
  | goes {p : Prog ι ω ε α} {v v₁ v₂ : ν} {s s₁ s₂ : σ} {tr₁ tr₂ : List (Step σ ι ω)} {r : Except ε α} :
      B.goes v s tr₁ v₁ s₁ → Exec M B p v₁ s₁ tr₂ r v₂ s₂ → Exec M B p v s (tr₁ ++ tr₂) r v₂ s₂
  | stops {p : Prog ι ω ε α} {v v₁ : ν} {s s₁ : σ} {tr : List (Step σ ι ω)} {e : ε} :
      B.stops v s tr e v₁ s₁ → Exec M B p v s tr (.error e) v₁ s₁
  | call {v v₁ : ν} {s s₁ s₂ : σ} {i : ι} {o : List ω} {k : List ω → Prog ι ω ε α} {tr : List (Step σ ι ω)}
      {r : Except ε α} :
      M s i = some (s₁, o) → Exec M B (k o) v s₁ tr r v₁ s₂ →
        Exec M B (.call i k) v s (⟨s, i, s₁, o⟩ :: tr) r v₁ s₂

/-- A handler for interrupts, with the variables that it shares with the program. -/
structure Handler (σ ι ω ε κ ν : Type*) where
  taken : κ → ν → σ → Prop
  prog : κ → ν → Prog ι ω ε ν

namespace Between

/-- Inputs that `E` allows. -/
def inputs (M : Machine σ ι ω) (E : ι → Prop) : Between σ ι ω ε ν where
  goes v s tr v₁ s₁ := v₁ = v ∧ ∃ i o, E i ∧ M s i = some (s₁, o) ∧ tr = [⟨s, i, s₁, o⟩]
  stops _ _ _ _ _ _ := False

/-- Inputs that `E` allows, and runs of the handler to its end. It does not interrupt itself. -/
def traps (M : Machine σ ι ω) (E : ι → Prop) (H : Handler σ ι ω ε κ ν) : Between σ ι ω ε ν where
  goes v s tr v₁ s₁ := (inputs (ε := ε) M E).goes v s tr v₁ s₁ ∨
    ∃ c, H.taken c v s ∧ Exec M (inputs M E) (H.prog c v) () s tr (.ok v₁) () s₁
  stops v s tr e v₁ s₁ := v₁ = v ∧
    ∃ c, H.taken c v s ∧ Exec M (inputs M E) (H.prog c v) () s tr (.error e) () s₁

end Between

section
variable {M : Machine σ ι ω} {E G : ι → Prop} {B : Between σ ι ω ε ν} {p : Prog ι ω ε α} {f : α → Prog ι ω ε β}
  {v v' : ν} {s s' : σ} {tr : List (Step σ ι ω)} {r : Except ε α} {q : Except ε β}

/-! ### Runs -/

/-- The steps of a program and of other inputs are a run of the machine, each its own or one of theirs. -/
theorem Exec.run (hp : p.Gives G) (h : Exec M (.inputs M E) p v s tr r v' s') :
    v' = v ∧ Run (traced M) s (tr.map Step.input) tr s' ∧ ∀ e ∈ tr, E e.input ∨ G e.input := by
  have hstep {a b : σ} {i : ι} {o : List ω} (hi : M a i = some (b, o)) :
      Run (traced M) a [i] [⟨a, i, b, o⟩] b := .single (by rw [traced, hi]; rfl)
  induction h with
  | ret => exact ⟨rfl, .nil, List.forall_mem_nil _⟩
  | throw => exact ⟨rfl, .nil, List.forall_mem_nil _⟩
  | goes hb _ ih =>
    obtain ⟨rfl, i, o, hE, hi, rfl⟩ := hb
    obtain ⟨rfl, hrun, hmem⟩ := ih hp
    exact ⟨rfl, (hstep hi).append hrun, List.forall_mem_cons.2 ⟨.inl hE, hmem⟩⟩
  | stops hb => exact hb.elim
  | call hi _ ih =>
    obtain ⟨rfl, hrun, hmem⟩ := ih (hp.2 _)
    exact ⟨rfl, (hstep hi).append hrun, List.forall_mem_cons.2 ⟨.inr hp.1, hmem⟩⟩

/-- What the program does with nothing in between is one of its runs. -/
theorem Exec.of_alone (h : p.alone M s = some (tr, r, s')) (v : ν) : Exec M B p v s tr r v s' := by
  induction p generalizing s tr r s' with
  | ret a =>
    cases h
    exact .ret a v _
  | throw e =>
    cases h
    exact .throw e v _
  | call i k ih =>
    obtain ⟨⟨m, o⟩, hm, h⟩ := Option.bind_eq_some_iff.1 h
    obtain ⟨⟨tr', r', t⟩, hk, heq⟩ := Option.map_eq_some_iff.1 h
    cases heq
    exact .call hm (ih o hk)

theorem Exec.of_isOk (h : (p.alone M s).map (fun q => q.2.1.isOk) = some true) (v : ν) :
    ∃ a tr s', Exec M B p v s tr (.ok a) v s' := by
  obtain ⟨⟨tr, r, s'⟩, hq, hok⟩ := Option.map_eq_some_iff.1 h
  cases r with
  | error e => cases hok
  | ok a => exact ⟨a, tr, s', .of_alone hq v⟩

/-- Steps of other inputs before a program. -/
theorem Exec.after {is : List ι} {tr' : List (Step σ ι ω)} (hrun : Run (traced M) s is tr s')
    (hE : ∀ e ∈ tr, E e.input) {v v' : ν} {s'' : σ} (h : Exec M (.inputs M E) p v s' tr' r v' s'') :
    Exec M (.inputs M E) p v s (tr ++ tr') r v' s'' := by
  induction hrun generalizing tr' with
  | nil => exact h
  | snoc _ hi ih =>
    obtain ⟨⟨b, o⟩, hb, heq⟩ := Option.map_eq_some_iff.1 hi
    cases heq
    rw [List.forall_mem_append, List.forall_mem_singleton] at hE
    rw [List.append_assoc]
    exact ih hE.1 (.goes ⟨rfl, _, _, hE.2, hb, rfl⟩ h)

/-- What comes in after the last input of a program. -/
theorem Exec.before {tr' : List (Step σ ι ω)} {v'' : ν} {s'' : σ} {a : α} (h : Exec M B p v s tr (.ok a) v' s')
    (hb : B.goes v' s' tr' v'' s'') : Exec M B p v s (tr ++ tr') (.ok a) v'' s'' := by
  generalize hr : Except.ok a = r at h
  induction h with
  | ret a v s =>
    cases hr
    rw [List.nil_append, ← List.append_nil tr']
    exact .goes hb (.ret a _ _)
  | throw => cases hr
  | goes hb' _ ih =>
    rw [List.append_assoc]
    exact .goes hb' (ih hb hr)
  | stops => cases hr
  | call hi _ ih => exact .call hi (ih hb hr)

/-- A program with a handler that gives inputs of its own is one with those inputs. -/
theorem Exec.of_traps {H : Handler σ ι ω ε κ ν} (hH : ∀ c v, (H.prog c v).Gives G) {a : α}
    (h : Exec M (.traps M E H) p v s tr (.ok a) v' s') :
    Exec M (.inputs M fun i => E i ∨ G i) p () s tr (.ok a) () s' := by
  generalize hr : Except.ok a = r at h
  induction h with
  | ret => cases hr; exact .ret _ _ _
  | throw => cases hr
  | goes hb _ ih =>
    rcases hb with ⟨-, i, o, hE, hi, rfl⟩ | ⟨c, -, hc⟩
    · exact .goes ⟨rfl, i, o, .inl hE, hi, rfl⟩ (ih hr)
    · obtain ⟨-, hrun, hmem⟩ := hc.run (hH _ _)
      exact Exec.after hrun hmem (ih hr)
  | stops => cases hr
  | call hi _ ih => exact .call hi (ih hr)

/-- A program after another runs in two parts, unless the first ends by an exception. -/
theorem exec_bind (h : Exec M B (p.bind f) v s tr q v' s') :
    (∃ a tr₁ tr₂ w m, Exec M B p v s tr₁ (.ok a) w m ∧ Exec M B (f a) w m tr₂ q v' s' ∧ tr = tr₁ ++ tr₂) ∨
      ∃ e, q = .error e ∧ Exec M B p v s tr (.error e) v' s' := by
  generalize hp : p.bind f = b at h
  induction h generalizing p with
  | ret a v s =>
    cases p with
    | ret a' =>
      refine .inl ⟨a', [], [], v, s, .ret a' v s, ?_, rfl⟩
      rw [show f a' = _ from hp]
      exact .ret a v s
    | throw e => cases hp
    | call i k => cases hp
  | throw e v s =>
    cases p with
    | ret a =>
      refine .inl ⟨a, [], [], v, s, .ret a v s, ?_, rfl⟩
      rw [show f a = _ from hp]
      exact .throw e v s
    | throw e' =>
      cases hp
      exact .inr ⟨e, rfl, .throw e v s⟩
    | call i k => cases hp
  | goes hb _ ih =>
    rcases ih hp with ⟨a, tr₁, tr₂, w, m, h₁, h₂, rfl⟩ | ⟨e, rfl, h₁⟩
    · exact .inl ⟨a, _, tr₂, w, m, .goes hb h₁, h₂, (List.append_assoc _ _ _).symm⟩
    · exact .inr ⟨e, rfl, .goes hb h₁⟩
  | stops hb => exact .inr ⟨_, rfl, .stops hb⟩
  | @call v v₁ s s₁ s₂ i o k tr r hi hrun ih =>
    cases p with
    | ret a =>
      refine .inl ⟨a, [], _, v, s, .ret a v s, ?_, rfl⟩
      rw [show f a = _ from hp]
      exact .call hi hrun
    | throw e => cases hp
    | call j k' =>
      cases hp
      rcases ih rfl with ⟨a, tr₁, tr₂, w, m, h₁, h₂, rfl⟩ | ⟨e, rfl, h₁⟩
      · exact .inl ⟨a, _ :: tr₁, tr₂, w, m, .call hi h₁, h₂, rfl⟩
      · exact .inr ⟨e, rfl, .call hi h₁⟩

end

/-! ### Pre- and postconditions -/

/-- What holds of the variables, the steps so far and the state. -/
abbrev Assn (σ ι ω ν : Type*) := ν → List (Step σ ι ω) → σ → Prop

/-- What comes in between keeps `P`, and leaves `R` of an exception. -/
structure Stable (B : Between σ ι ω ε ν) (P : Assn σ ι ω ν) (R : ε → Assn σ ι ω ν) : Prop where
  goes {v v₁ : ν} {h tr : List (Step σ ι ω)} {s s₁ : σ} : B.goes v s tr v₁ s₁ → P v h s → P v₁ (h ++ tr) s₁
  stops {v v₁ : ν} {h tr : List (Step σ ι ω)} {s s₁ : σ} {e : ε} :
    B.stops v s tr e v₁ s₁ → P v h s → R e v₁ (h ++ tr) s₁

/-- Each input that `E` allows keeps `P`. -/
def Keeps (M : Machine σ ι ω) (E : ι → Prop) (P : List (Step σ ι ω) → σ → Prop) : Prop :=
  ∀ h s i s' o, E i → M s i = some (s', o) → P h s → P (h ++ [⟨s, i, s', o⟩]) s'

/-- Run from where `P` holds, the program ends where `Q` of its value holds, or by an exception where `R` does. -/
def Triple (M : Machine σ ι ω) (B : Between σ ι ω ε ν) (P : Assn σ ι ω ν) (p : Prog ι ω ε α)
    (Q : α → Assn σ ι ω ν) (R : ε → Assn σ ι ω ν) : Prop :=
  ∀ v h s tr r v' s', P v h s → Exec M B p v s tr r v' s' →
    match r with
    | .ok a => Q a v' (h ++ tr) s'
    | .error e => R e v' (h ++ tr) s'

section
variable {M : Machine σ ι ω} {E G : ι → Prop} {B : Between σ ι ω ε ν} {P P' F : Assn σ ι ω ν} {p : Prog ι ω ε α}
  {f : α → Prog ι ω ε β} {Q Q' : α → Assn σ ι ω ν} {S : β → Assn σ ι ω ν} {R R' : ε → Assn σ ι ω ν} {i : ι}
  {k : List ω → Prog ι ω ε α} {H : Handler σ ι ω ε κ ν}

namespace Triple

theorem mono (h : Triple M B P p Q R) (hP : ∀ v tr s, P' v tr s → P v tr s)
    (hQ : ∀ a v tr s, Q a v tr s → Q' a v tr s) (hR : ∀ e v tr s, R e v tr s → R' e v tr s) :
    Triple M B P' p Q' R' := by
  intro v tr₀ s tr r v' s' hpre hrun
  have := h v tr₀ s tr r v' s' (hP _ _ _ hpre) hrun
  cases r with
  | ok a => exact hQ _ _ _ _ this
  | error e => exact hR _ _ _ _ this

theorem ret {a : α} (hP : Stable B P R) (hQ : ∀ v tr s, P v tr s → Q a v tr s) :
    Triple M B P (.ret a) Q R := by
  intro v tr₀ s tr r v' s' hpre hrun
  generalize hp : (.ret a : Prog ι ω ε α) = p at hrun
  induction hrun generalizing tr₀ with
  | ret =>
    cases hp
    rw [List.append_nil]
    exact hQ _ _ _ hpre
  | throw => cases hp
  | goes hb _ ih =>
    have := ih _ (hP.goes hb hpre) hp
    rwa [List.append_assoc] at this
  | stops hb => exact hP.stops hb hpre
  | call => cases hp

theorem throw {e : ε} (hR : Stable B (R e) R) : Triple M B (R e) (.throw e) Q R := by
  intro v tr₀ s tr r v' s' hpre hrun
  generalize hp : (.throw e : Prog ι ω ε α) = p at hrun
  induction hrun generalizing tr₀ with
  | ret => cases hp
  | throw =>
    cases hp
    rwa [List.append_nil]
  | goes hb _ ih =>
    have := ih _ (hR.goes hb hpre) hp
    rwa [List.append_assoc] at this
  | stops hb => exact hR.stops hb hpre
  | call => cases hp

/-- An input goes from a stable assertion to what it makes of it. -/
theorem call {N : List ω → Assn σ ι ω ν} (hP : Stable B P R)
    (hi : ∀ v tr s s' o, P v tr s → M s i = some (s', o) → N o v (tr ++ [⟨s, i, s', o⟩]) s')
    (hk : ∀ o, Triple M B (N o) (k o) Q R) : Triple M B P (.call i k) Q R := by
  intro v tr₀ s tr r v' s' hpre hrun
  generalize hp : Prog.call i k = p at hrun
  induction hrun generalizing tr₀ with
  | ret => cases hp
  | throw => cases hp
  | goes hb _ ih =>
    have := ih _ (hP.goes hb hpre) hp
    rwa [List.append_assoc] at this
  | stops hb => exact hP.stops hb hpre
  | call he hrun _ =>
    cases hp
    have := hk _ _ _ _ _ _ _ _ (hi _ _ _ _ _ hpre he) hrun
    rwa [List.append_assoc] at this

theorem bind (hp : Triple M B P p Q R) (hf : ∀ a, Triple M B (Q a) (f a) S R) : Triple M B P (p.bind f) S R := by
  intro v tr₀ s tr r v' s' hpre hrun
  rcases exec_bind hrun with ⟨a, tr₁, tr₂, w, m, h₁, h₂, rfl⟩ | ⟨e, rfl, h₁⟩
  · have := hf a _ _ _ _ _ _ _ (hp _ _ _ _ _ _ _ hpre h₁) h₂
    rwa [List.append_assoc] at this
  · exact hp _ _ _ _ _ _ _ hpre h₁

/-- The rule for a loop over a list: the invariant is about what the loop has done of it. -/
theorem forEach {τ : Type*} {f : τ → Prog ι ω ε Unit} {as : List τ} {I : List τ → Assn σ ι ω ν}
    (hI : ∀ pre, Stable B (I pre) R)
    (hf : ∀ pre a post, as = pre ++ a :: post → Triple M B (I pre) (f a) (fun _ => I (pre ++ [a])) R) :
    Triple M B (I []) (Prog.forEach f as) (fun _ => I as) R := by
  suffices h : ∀ post pre, as = pre ++ post → Triple M B (I pre) (Prog.forEach f post) (fun _ => I as) R from
    h as [] rfl
  intro post
  induction post with
  | nil =>
    rintro pre rfl
    rw [List.append_nil] at hf ⊢
    exact .ret (hI pre) fun _ _ _ h => h
  | cons a post ih =>
    intro pre has
    refine .bind (hf pre a post has) fun _ => ih (pre ++ [a]) ?_
    rw [has, List.append_assoc, List.singleton_append]

theorem exists_pre {τ : Type*} {P : τ → Assn σ ι ω ν} (h : ∀ x, Triple M B (P x) p Q R) :
    Triple M B (fun v tr s => ∃ x, P x v tr s) p Q R := by
  rintro v tr₀ s tr r v' s' ⟨x, hpre⟩ hrun
  exact h x _ _ _ _ _ _ _ hpre hrun

theorem of_pure {φ : Prop} (h : φ → Triple M B P p Q R) : Triple M B (fun v tr s => φ ∧ P v tr s) p Q R := by
  rintro v tr₀ s tr r v' s' ⟨hφ, hpre⟩ hrun
  exact h hφ _ _ _ _ _ _ _ hpre hrun

/-- An assertion that the program's own inputs keep, and what comes in between, holds to its end. -/
theorem of_keeps (hp : p.Gives G) (hP : Stable B P R) (hG : ∀ v, Keeps M G (P v)) :
    Triple M B P p (fun _ => P) (fun e v tr s => R e v tr s ∨ P v tr s) := by
  intro v tr₀ s tr r v' s' hpre hrun
  induction hrun generalizing tr₀ with
  | ret =>
    rw [List.append_nil]
    exact hpre
  | throw =>
    rw [List.append_nil]
    exact .inr hpre
  | goes hb _ ih =>
    have := ih hp _ (hP.goes hb hpre)
    rwa [List.append_assoc] at this
  | stops hb => exact .inl (hP.stops hb hpre)
  | call hi _ ih =>
    have := ih (hp.2 _) _ (hG _ _ _ _ _ _ hp.1 hi hpre)
    rwa [List.append_assoc] at this

/-- The frame rule: what the other inputs and the program's own keep holds on. -/
theorem frame {F : List (Step σ ι ω) → σ → Prop} (h : Triple M (.inputs M E) P p Q R) (hp : p.Gives G)
    (hE : Keeps M E F) (hG : Keeps M G F) :
    Triple M (.inputs M E) (fun v tr s => P v tr s ∧ F tr s) p (fun a v tr s => Q a v tr s ∧ F tr s)
      (fun e v tr s => R e v tr s ∧ F tr s) := by
  rintro v tr₀ s tr r v' s' ⟨hpre, hF⟩ hrun
  obtain ⟨-, hr, hmem⟩ := hrun.run hp
  have hend : F (tr₀ ++ tr) s' := by
    clear hrun hpre
    generalize tr.map Step.input = is at hr
    induction hr with
    | nil => rwa [List.append_nil]
    | snoc _ hi ih =>
      obtain ⟨⟨b, o⟩, hb, heq⟩ := Option.map_eq_some_iff.1 hi
      cases heq
      rw [List.forall_mem_append, List.forall_mem_singleton] at hmem
      rw [← List.append_assoc]
      rcases hmem.2 with he | hg
      · exact hE _ _ _ _ _ he hb (ih hmem.1)
      · exact hG _ _ _ _ _ hg hb (ih hmem.1)
  have := h _ _ _ _ _ _ _ hpre hrun
  cases r with
  | ok a => exact ⟨this, hend⟩
  | error e => exact ⟨this, hend⟩

end Triple

theorem stable_inputs (h : ∀ v, Keeps M E (P v)) : Stable (.inputs M E) P R where
  goes hb hP := by
    obtain ⟨rfl, i, o, hE, hi, rfl⟩ := hb
    exact h _ _ _ _ _ _ hE hi hP
  stops hb := hb.elim

/-- A handler that goes from the assertion back to it, and the other inputs, keep it. -/
theorem stable_traps (hin : ∀ v, Keeps M E (P v))
    (hH : ∀ c v, Triple M (.inputs M E) (fun (_ : Unit) tr s => P v tr s ∧ H.taken c v s) (H.prog c v)
      (fun v' _ => P v') (fun e _ => R e v)) : Stable (.traps M E H) P R where
  goes hb hP := by
    rcases hb with hb | ⟨c, hc, hrun⟩
    · exact (stable_inputs hin).goes (R := R) hb hP
    · exact hH c _ _ _ _ _ _ _ _ ⟨hP, hc⟩ hrun
  stops hb hP := by
    obtain ⟨rfl, c, hc, hrun⟩ := hb
    exact hH c _ _ _ _ _ _ _ _ ⟨hP, hc⟩ hrun

end
end Programs
