import CdcVp.RiscvCustomSoc

/-!
# Runs of the platform

`dispatch` is what an input of the platform is to the one component it concerns, and `Acts` what a step is there.
Each component is a `Part` of the platform, so a run of the platform is a run of the component's own machine on
what comes in for it, and an invariant of the component holds on the platform.
-/

namespace CdcVp
open Runs

/-- A target as a machine: one transaction after another. -/
def targetMachine {σ : Type*} (f : BSocket σ) : Machine σ (Payload × Nat) Payload := fun s r =>
  let out := f s r.1 r.2
  some (out.1, [out.2.1])

/-- An IP block as a machine: a transaction, or a move of its own. -/
def ipMachine {σ : Type*} (f : BSocket σ) : Machine σ (Payload × Nat ⊕ σ) Payload := fun s r =>
  match r with
  | .inl r => targetMachine f s r
  | .inr s' => some (s', [])

namespace RiscvCustomSoc
variable {υ ι : Type*} {ip : Ip υ ι} {s s' : RiscvCustomSoc υ ι} {t : Payload} {d : Nat} {op : Op υ ι}
  {is : List (Op υ ι)} {o os : List Payload}

/-- What a component sees of an input of the platform. -/
inductive Act (υ ι : Type*)
  | ram (r : Payload × Nat)
  | uart (r : Payload × Nat ⊕ υ)
  | clint (op : Clint.Op)
  | plic (op : Plic.Op kNumPlicSources)
  | i2c (r : Payload × Nat ⊕ ι)

namespace Act

def toRam : Act υ ι → Option (Payload × Nat)
  | ram r => some r
  | _ => none

def toUart : Act υ ι → Option (Payload × Nat ⊕ υ)
  | uart r => some r
  | _ => none

def toClint : Act υ ι → Option Clint.Op
  | clint op => some op
  | _ => none

def toPlic : Act υ ι → Option (Plic.Op kNumPlicSources)
  | plic op => some op
  | _ => none

def toI2c : Act υ ι → Option (Payload × Nat ⊕ ι)
  | i2c r => some r
  | _ => none

end Act

def dispatch : Op υ ι → Option (Act υ ι)
  | .transport t d =>
    if ramRange.contains t.address then some (.ram (ramRange.toLocal t, d))
    else if uartRange.contains t.address then some (.uart (.inl (uartRange.toLocal t, d)))
    else if clintRange.contains t.address then some (.clint (.transport (clintRange.toLocal t) d))
    else if plicRange.contains t.address then some (.plic (.transport (plicRange.toLocal t) d))
    else if i2cRange.contains t.address then some (.i2c (.inl (i2cRange.toLocal t, d)))
    else none
  | .i2cIrq level => some (.plic (.lines (Vector.replicate kNumPlicSources level)))
  | .onSources => some (.plic .onSources)
  | .kernel move => some (.clint move.op)
  | .uart u => some (.uart (.inr u))
  | .i2c u => some (.i2c (.inr u))

/-- A step of the platform is one of the component that it concerns. -/
inductive Acts (ip : Ip υ ι) (s : RiscvCustomSoc υ ι) : Option (Act υ ι) → RiscvCustomSoc υ ι → Prop
  | ram (t : Payload) (d : Nat) :
    Acts ip s (some (.ram (t, d))) (s.withRam (s.ram.bTransport t d).1 (s.ram.bTransport_fst t d))
  | uart (r : Payload × Nat ⊕ υ) (u : υ) (o : List Payload) (h : ipMachine ip.uart s.uart r = some (u, o)) :
    Acts ip s (some (.uart r)) { s with uart := u }
  | clint (op : Clint.Op) (c : Clint) (o : List Clint.Event) (h : Clint.machine s.clint op = some (c, o)) :
    Acts ip s (some (.clint op)) (s.withClint c)
  | plic (op : Plic.Op kNumPlicSources) (p : Plic kNumPlicSources) (o : List Plic.Event)
      (h : Plic.machine kNumPlicSources s.plic op = some (p, o)) :
    Acts ip s (some (.plic op)) (s.withPlic p)
  | i2c (r : Payload × Nat ⊕ ι) (u : ι) (o : List Payload) (h : ipMachine ip.i2c s.i2c r = some (u, o)) :
    Acts ip s (some (.i2c r)) { s with i2c := u }
  | none : Acts ip s none s

/-! ### One step -/

theorem Served.acts {r : RiscvCustomSoc υ ι × Payload × Nat} (h : Served ip s t d r) :
    Acts ip s (dispatch (.transport t d)) r.1 := by
  simp only [dispatch]
  rcases h with h | h | ⟨h, r, hr⟩ | h | h | h
  · rw [if_pos h]
    exact .ram _ d
  · rw [if_neg (AddressRange.not_contains h (by decide)), if_pos h]
    exact .uart _ _ _ rfl
  · rw [if_neg (AddressRange.not_contains h (by decide)), if_neg (AddressRange.not_contains h (by decide)), if_pos h]
    exact .clint _ _ _ (by rw [Clint.machine, hr]; rfl)
  · rw [if_neg (AddressRange.not_contains h (by decide)), if_neg (AddressRange.not_contains h (by decide)),
      if_neg (AddressRange.not_contains h (by decide)), if_pos h]
    exact .plic _ _ _ rfl
  · rw [if_neg (AddressRange.not_contains h (by decide)), if_neg (AddressRange.not_contains h (by decide)),
      if_neg (AddressRange.not_contains h (by decide)), if_neg (AddressRange.not_contains h (by decide)), if_pos h]
    exact .i2c _ _ _ rfl
  · have hno (rg : AddressRange) (hrg : rg ∈ bus.ranges) : ¬ rg.contains t.address = true :=
      Bool.eq_false_iff.1 (h rg hrg)
    simp only [bus, List.mem_cons, List.not_mem_nil, or_false, forall_eq_or_imp, forall_eq] at hno
    obtain ⟨hram, huart, hclint, hplic, hi2c⟩ := hno
    rw [if_neg hram, if_neg huart, if_neg hclint, if_neg hplic, if_neg hi2c]
    exact .none

theorem step_acts (h : machine ip s op = some (s', o)) : Acts ip s (dispatch op) s' := by
  cases op with
  | transport t d =>
    obtain ⟨r, hr, heq⟩ := Option.map_eq_some_iff.1 h
    obtain ⟨r', hr', hs⟩ := bTransport_served ip s t d
    obtain rfl := Option.some.inj (hr.symm.trans hr')
    cases heq
    exact hs.acts
  | i2cIrq level =>
    simp only [machine] at h
    obtain ⟨⟨p, ev⟩, hp, heq⟩ := Option.map_eq_some_iff.1 h
    cases heq
    exact .plic _ p ev hp
  | onSources =>
    simp only [machine] at h
    obtain ⟨⟨p, ev⟩, hp, heq⟩ := Option.map_eq_some_iff.1 h
    cases heq
    exact .plic _ p ev hp
  | kernel move =>
    simp only [machine] at h
    split at h
    · cases h
    obtain ⟨⟨c, ev⟩, hc, heq⟩ := Option.map_eq_some_iff.1 h
    cases heq
    exact .clint _ c ev hc
  | uart u =>
    cases h
    exact .uart _ u [] rfl
  | i2c u =>
    cases h
    exact .i2c _ u [] rfl

/-! ### The components -/

theorem part_of_acts {τ γ κ : Type*} {N : Machine τ γ κ} {f : RiscvCustomSoc υ ι → τ} {on : Act υ ι → Option γ}
    (htakes : ∀ s a s' j, Acts ip s (some a) s' → on a = some j → ∃ o, N (f s) j = some (f s', o))
    (hkeeps : ∀ s a s', Acts ip s a s' → a.bind on = none → f s' = f s) :
    Part (machine ip) N f fun op => (dispatch op).bind on where
  takes {s s' op o} j h hj := by
    obtain ⟨a, ha, haj⟩ := Option.bind_eq_some_iff.1 hj
    have hact := step_acts h
    rw [ha] at hact
    exact htakes s a s' j hact haj
  keeps {s s' op o} h hj := hkeeps s _ s' (step_acts h) hj

theorem part_ram (ip : Ip υ ι) : Part (machine ip) (targetMachine MemoryTlm.bTransport) ram
    fun op => (dispatch op).bind Act.toRam := by
  refine part_of_acts ?_ ?_
  · intro s a s' j hact hj
    cases hact <;> cases hj
    exact ⟨_, rfl⟩
  · intro s a s' hact hj
    cases hact <;> first | rfl | cases hj

theorem part_uart (ip : Ip υ ι) : Part (machine ip) (ipMachine ip.uart) uart
    fun op => (dispatch op).bind Act.toUart := by
  refine part_of_acts ?_ ?_
  · intro s a s' j hact hj
    cases hact <;> cases hj
    rename_i hu
    exact ⟨_, hu⟩
  · intro s a s' hact hj
    cases hact <;> first | rfl | cases hj

theorem part_clint (ip : Ip υ ι) : Part (machine ip) Clint.machine clint
    fun op => (dispatch op).bind Act.toClint := by
  refine part_of_acts ?_ ?_
  · intro s a s' j hact hj
    cases hact <;> cases hj
    rename_i hc
    exact ⟨_, hc⟩
  · intro s a s' hact hj
    cases hact <;> first | rfl | cases hj

theorem part_plic (ip : Ip υ ι) : Part (machine ip) (Plic.machine kNumPlicSources) plic
    fun op => (dispatch op).bind Act.toPlic := by
  refine part_of_acts ?_ ?_
  · intro s a s' j hact hj
    cases hact <;> cases hj
    rename_i hp
    exact ⟨_, hp⟩
  · intro s a s' hact hj
    cases hact <;> first | rfl | cases hj

theorem part_i2c (ip : Ip υ ι) : Part (machine ip) (ipMachine ip.i2c) i2c
    fun op => (dispatch op).bind Act.toI2c := by
  refine part_of_acts ?_ ?_
  · intro s a s' j hact hj
    cases hact <;> cases hj
    rename_i hu
    exact ⟨_, hu⟩
  · intro s a s' hact hj
    cases hact <;> first | rfl | cases hj

/-- A run of the platform from its start is one of the PLIC and one of the CLINT from their own. -/
theorem run_controllers {uart : υ} {i2c : ι} (h : Run (machine ip) (new uart i2c) is os s) :
    (∃ ps, Run (Plic.machine kNumPlicSources) (Plic.new (Vector.replicate kNumPlicSources false))
      (is.filterMap fun op => (dispatch op).bind Act.toPlic) ps s.plic) ∧
    ∃ cs, Run Clint.machine Clint.new (is.filterMap fun op => (dispatch op).bind Act.toClint) cs s.clint :=
  ⟨(part_plic ip).run h, (part_clint ip).run h⟩

end RiscvCustomSoc

open RiscvCustomSoc

/-- The platform over any run. Each component does what it does by itself on the transactions for its region, at
their local addresses, and its own moves, and no other transaction touches it. Every transaction is answered, by the
component whose region has its address or with an address error. -/
theorem riscv_custom_soc_runs {υ ι : Type*} (ip : Ip υ ι) (s s' : RiscvCustomSoc υ ι) (is : List (Op υ ι))
    (os : List Payload) (hrun : Run (machine ip) s is os s') :
    (∃ ps, Run (targetMachine MemoryTlm.bTransport) s.ram
      (is.filterMap fun op => (dispatch op).bind Act.toRam) ps s'.ram) ∧
    (∃ ps, Run (ipMachine ip.uart) s.uart (is.filterMap fun op => (dispatch op).bind Act.toUart) ps s'.uart) ∧
    (∃ ps, Run Clint.machine s.clint (is.filterMap fun op => (dispatch op).bind Act.toClint) ps s'.clint) ∧
    (∃ ps, Run (Plic.machine kNumPlicSources) s.plic
      (is.filterMap fun op => (dispatch op).bind Act.toPlic) ps s'.plic) ∧
    (∃ ps, Run (ipMachine ip.i2c) s.i2c (is.filterMap fun op => (dispatch op).bind Act.toI2c) ps s'.i2c) ∧
    ∀ t d, ∃ r, machine ip s' (.transport t d) = some (r.1, [r.2.1]) ∧ Served ip s' t d r := by
  refine ⟨(part_ram ip).run hrun, (part_uart ip).run hrun, (part_clint ip).run hrun, (part_plic ip).run hrun,
    (part_i2c ip).run hrun, ?_⟩
  intro t d
  obtain ⟨r, hr, hs⟩ := bTransport_served ip s' t d
  exact ⟨r, by rw [machine, hr]; rfl, hs⟩

/-- A store to the UART, and an interrupt of the I2C. -/
theorem riscv_custom_soc_runs_store : ∃ (os : List Payload) (s' : RiscvCustomSoc Unit Unit),
    Run (machine Ip.idle) (new () ()) [.transport ⟨.write, 0x10000004, some [7], 1, .incomplete, false⟩ 0,
      .i2cIrq true, .onSources] os s' ∧
    (∃ ps, Run (ipMachine Ip.idle.uart) () [.inl (⟨.write, 4, some [7], 1, .incomplete, false⟩, 0)] ps s'.uart) ∧
    ∃ ps, Run (Plic.machine kNumPlicSources) (new () ()).plic
      [.lines (Vector.replicate kNumPlicSources true), .onSources] ps s'.plic := by
  have hok : (exec (machine Ip.idle) (new () ()) [.transport ⟨.write, 0x10000004, some [7], 1, .incomplete, false⟩ 0,
      .i2cIrq true, .onSources]).isSome = true := by decide +kernel
  obtain ⟨⟨s', os⟩, h⟩ := Option.isSome_iff_exists.1 hok
  have hrun := riscv_custom_soc_runs Ip.idle _ _ _ _ (Run.of_exec h)
  exact ⟨os, s', .of_exec h, hrun.2.1, hrun.2.2.2.1⟩

end CdcVp
