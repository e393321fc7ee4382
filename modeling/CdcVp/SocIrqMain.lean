import CdcVp.SocIrqTimer
import CdcVp.SocIrqTraps

/-!
# `main` with its handler

`main` sets up the PLIC and the timer while the handler may be taken at any point. Its setup is a matter of the
inputs that keep it, the handler's among them; the handler's work, `Tended`, is kept by the inputs of `main`. Both
hold together of every run.
-/

namespace CdcVp
open FlatStore LittleEndian Programs Runs

namespace Plic
variable {n : Nat} {p p' : Plic n} {op : Op n} {o : List Event}

/-- What only reads, or completes, leaves the setup. -/
theorem setup_step (hn : n ≤ 31) (h : machine n p op = some (p', o))
    (hop : ∀ t d, op = .transport t d → t.command = .read ∨ t.address = kClaim) : SameSetup p p' := by
  rcases step_cases h with ⟨q, hq, rfl, -⟩ | ⟨-, -, hs⟩
  swap
  · exact hs
  suffices hs : SameSetup p q from ⟨hs.priority, hs.enable, hs.threshold⟩
  cases op with
  | transport t d =>
    obtain ⟨ptr, r, -, -, hr, hq⟩ := evaluates_transport.1 hq
    have hsel := (decode_iff hn).1 hr
    split at hq
    · cases r with
      | claim =>
        cases hq
        exact setup_marked p
      | _ => cases hq
    · rename_i hc
      have ha := (hop t d rfl).resolve_left hc
      rw [ha] at hr
      obtain rfl : Reg.claim = r := Option.some.inj (((decode_iff (r := .claim) hn).2 rfl).symm.trans hr)
      cases hq
      exact setup_completed p _
  | lines irqIn => cases hq
  | onSources =>
    obtain ⟨-, hq⟩ := Option.ite_none_right_eq_some.1 hq
    cases hq
    exact ⟨rfl, rfl, rfl⟩

end Plic

namespace Clint
variable {c c' : Clint} {op : Op} {o : List Event}

theorem now_step (h : machine c op = some (c', o)) : c.now.toNat ≤ c'.now.toNat := by
  rcases step_cases h with ⟨t, d, r, rfl, hr, rfl, -⟩ | ⟨rfl, -, rfl, -⟩ | ⟨rfl, -, rfl, -⟩ |
    ⟨rfl, -, -, rfl, -⟩ | ⟨time, rfl, -, hlt, -, rfl, -⟩ | ⟨rfl, -, -, rfl, -⟩
  · rcases bTransport_cases hr with ⟨-, hs⟩ | ⟨-, v, hs⟩
    · rw [hs.now]
    · rw [hs]
  · exact Nat.le_refl _
  · rw [timerTurn_now]
  · exact Nat.le_refl _
  · exact (UInt64.lt_iff_toNat_lt.1 hlt).le
  · exact Nat.le_refl _

end Clint

namespace RiscvCustomSoc
variable {υ ι : Type*} {ip : Ip υ ι} {s s' : RiscvCustomSoc υ ι} {is : List (Op υ ι)}
  {tr : List (Step (RiscvCustomSoc υ ι) (Op υ ι) Payload)}

theorem mtime_step {op : Op υ ι} {o : List Payload} (h : machine ip s op = some (s', o)) : s.mtime ≤ s'.mtime := by
  refine Nat.div_le_div_right ?_
  cases hon : (dispatch op).bind Act.toClint with
  | none => rw [(part_clint ip).keeps h hon]
  | some j =>
    obtain ⟨o', hj⟩ := (part_clint ip).takes j h hon
    exact Clint.now_step hj

theorem mtime_of_mem {e : Step (RiscvCustomSoc υ ι) (Op υ ι) Payload} (h : Run (traced (machine ip)) s is tr s')
    (he : e ∈ tr) : e.post.mtime ≤ s'.mtime := by
  obtain ⟨tr₁, tr₂, rfl⟩ := List.append_of_mem he
  obtain ⟨is₁, is₂, -, -, -, h₂⟩ := h.split
  exact h₂.of_traced.inv (fun x => e.post.mtime ≤ x.mtime) (Nat.le_refl _)
    fun _ _ _ _ hm hle => hle.trans (mtime_step hm)

end RiscvCustomSoc

namespace SocIrqRiscv
open RiscvCustomSoc

section
variable {υ ι ν : Type*} {ip : Ip υ ι} {s s' : RiscvCustomSoc υ ι} {op : Op υ ι} {o : List Payload} {E : Op υ ι → Prop}
  {tr : Trace υ ι} {m : Nat} {a : UInt64} {c c' : Plic kNumPlicSources → Prop} {w : UInt32}
  {R : Payload → Assn (RiscvCustomSoc υ ι) (Op υ ι) Payload ν}

/-! ### The setup of the PLIC -/

/-- The PLIC is set up for source 1. -/
structure Config (p : Plic kNumPlicSources) : Prop where
  priority : p.priorityOf 1 = 1
  enable : p.enable = 2
  threshold : p.threshold = 0

/-- `c` is about the setup only. -/
def OfSetup (c : Plic kNumPlicSources → Prop) : Prop := ∀ p q, Plic.SameSetup p q → c p → c q

theorem ofSetup_priority : OfSetup fun p => p.priorityOf 1 = 1 := by
  intro p q hs h
  rw [Plic.priorityOf, hs.priority]
  exact h

theorem ofSetup_enable : OfSetup fun p => p.priorityOf 1 = 1 ∧ p.enable = 2 :=
  fun _ _ hs h => ⟨ofSetup_priority _ _ hs h.1, hs.enable.trans h.2⟩

theorem ofSetup_config : OfSetup Config :=
  fun _ _ hs h => ⟨ofSetup_priority _ _ hs h.priority, hs.enable.trans h.enable, hs.threshold.trans h.threshold⟩

theorem setup_quiet (h : machine ip s op = some (s', o)) (hop : ¬ SetsPlic op) : Plic.SameSetup s.plic s'.plic := by
  cases hon : (dispatch op).bind Act.toPlic with
  | none =>
    rw [(part_plic ip).keeps h hon]
    exact .refl _
  | some j =>
    obtain ⟨o', hj⟩ := (part_plic ip).takes j h hon
    refine Plic.setup_step (by decide) hj ?_
    rintro t' d rfl
    obtain ⟨t, rfl, hin, rfl⟩ := of_dispatch_plic hon
    by_contra hno
    obtain ⟨hc, ha⟩ := not_or.1 hno
    refine hop ⟨hc, hin, fun heq => ha ?_⟩
    show t.address - kPlicBase = Plic.kClaim
    rw [heq]
    decide

theorem keeps_setup (hc : OfSetup c) (hE : ∀ op, E op → ¬ SetsPlic op) :
    Keeps (machine ip) E fun _ s => c s.plic :=
  fun _ _ _ _ _ hop hm h => hc _ _ (setup_quiet hm (hE _ hop)) h

/-- A store to a register of the PLIC, with nothing armed on the timer. -/
theorem store32_plic (reg : Plic.Reg) (hE : ∀ op, E op → KeepsSetup op) (hc : OfSetup c) (hc' : OfSetup c')
    (hin : plicRange.contains a = true) (hclint : ¬ clintRange.contains a = true)
    (hd : Plic.decode kNumPlicSources (a - kPlicBase) = some reg)
    (hset : ∀ p, c p → c' (((reg.store p w).map Plic.updateMeip).getD p)) :
    Triple (machine ip) (.inputs (machine ip) E) (fun (_ : ν) tr s => Disarmed m tr s ∧ c s.plic) (store32 a w)
      (fun _ _ tr s => Disarmed m tr s ∧ c' s.plic) R := by
  have hkeeps {c : Plic kNumPlicSources → Prop} (hc : OfSetup c) :
      Keeps (machine ip) E fun tr s => Disarmed m tr s ∧ c s.plic := by
    rintro tr s op s' o hop hm ⟨hz, h⟩
    exact ⟨keeps_disarmed (fun _ h => (hE _ h).2) tr s op s' o hop hm hz,
      keeps_setup hc (fun _ h => (hE _ h).1) tr s op s' o hop hm h⟩
  refine .bind (access_answered (Q := fun _ _ tr s => Disarmed m tr s ∧ c' s.plic) (fun _ => hkeeps hc)
    (fun _ _ => hkeeps hc') ?_) fun _ => .ret (stable_inputs fun _ => hkeeps hc') fun _ _ _ h => h
  rintro _ tr s r ⟨hz, h⟩ hm hs
  have hw : Plic.wordOf (bytes 4 w.toNat) = w := by
    rw [← UInt32.toNat_inj, Plic.toNat_wordOf, List.take_of_length_le (by simp), value_bytes_of_lt w.toNat_lt]
  have hout := Plic.bTransport_write (t := plicRange.toLocal (storeOf a 4 (bytes 4 w.toNat))) (d := 0) rfl rfl hd
    (show TlmCommand.write ≠ TlmCommand.read by decide) s.plic
  rw [hw] at hout
  obtain rfl := hs.takes .plic hin
  refine ⟨by rw [hout]; rfl, fun T => ?_, ?_⟩
  · exact (hz T).step (fun h0 => absurd rfl h0) (fun h' => hclint h'.1) hm
  · rw [hout]
    exact hset _ h

/-- What `main` sets up: the PLIC for source 1, and the timer armed by the two reads `m₁` and `m₂`. -/
def SetUp (m : Nat) (tr : Trace υ ι) (s : RiscvCustomSoc υ ι) : Prop :=
  (∃ m₁ m₂ hi lo, (m ≤ m₁ ∧ m₁ ≤ m₂) ∧ (hi.toNat = m₁ / 2 ^ 32 % 2 ^ 32 ∧ lo.toNat = m₂ % 2 ^ 32) ∧
    TwoReads m₁ m₂ tr ∧ FullArmed hi (lo + 100) m₂ tr s) ∧ Config s.plic

theorem keeps_setUp (hE : ∀ op, E op → KeepsSetup op) : Keeps (machine ip) E (SetUp m) := by
  rintro tr s op s' o hop hm ⟨⟨m₁, m₂, hi, lo, hle, hhl, hreads, hf⟩, hc⟩
  exact ⟨⟨m₁, m₂, hi, lo, hle, hhl, hreads.append _, keeps_fullArmed (fun _ h => (hE _ h).2) tr s op s' o hop hm hf⟩,
    ofSetup_config _ _ (setup_quiet hm (hE _ hop).1) hc⟩

/-- Accesses that leave the setup keep what rests on it. -/
theorem triple_of_gives {α : Type*} {p : Fw υ ι α} {I : Trace υ ι → RiscvCustomSoc υ ι → Prop} (hp : p.Gives KeepsSetup)
    (hE : ∀ op, E op → KeepsSetup op)
    (hI : ∀ {E : Op υ ι → Prop}, (∀ op, E op → KeepsSetup op) → Keeps (machine ip) E I) :
    Triple (machine ip) (.inputs (machine ip) E) (fun (_ : ν) => I) p (fun _ _ => I) (fun _ _ _ _ => True) :=
  (Triple.of_keeps hp (stable_inputs (R := fun _ _ _ _ => True) fun _ => hI hE) fun _ => hI fun _ h => h).mono
    (fun _ _ _ h => h) (fun _ _ _ _ h => h) fun _ _ _ _ _ => trivial

theorem gives_armTimer : (armTimer : Fw υ ι Unit).Gives fun op => ¬ SetsPlic op := by
  have hstore {a : UInt64} (ha : ¬ plicRange.contains a = true) (n : UInt32) (bs : List UInt8) :
      ¬ SetsPlic (.transport (storeOf a n bs) 0 : Op υ ι) := fun h => ha h.2.1
  exact (gives_load32 fun h => h.1 rfl).bind fun _ => (gives_load32 fun h => h.1 rfl).bind fun _ =>
    (gives_store32 (hstore (by decide)) _).bind fun _ => gives_store32 (hstore (by decide)) _

/-- `main` up to its loop, from a timer that nothing is armed on. -/
theorem setup_triple (ip : Ip υ ι) (hE : ∀ op, E op → KeepsSetup op) :
    Triple (machine ip) (.inputs (machine ip) E) (fun (_ : ν) => Disarmed m) setup (fun _ _ => SetUp m)
      (fun _ _ _ _ => True) := by
  have hfar {a : UInt64} (h₁ : ¬ plicRange.contains a = true) (h₂ : ¬ clintRange.contains a = true) (n : UInt32)
      (bs : List UInt8) : KeepsSetup (.transport (storeOf a n bs) 0 : Op υ ι) := ⟨fun h => h₁ h.2.1, fun h => h₂ h.1⟩
  have htimer : ∀ op, E op → ¬ SetsTimer op := fun _ h => (hE _ h).2
  refine .bind (Q := fun _ _ tr s => Disarmed m tr s ∧ True) ?_ fun _ => ?_
  · refine (triple_of_gives (I := Disarmed m) (gives_uartPuts (hfar (by decide) (by decide)) _) hE
      fun hE => keeps_disarmed fun _ h => (hE _ h).2).mono (fun _ _ _ h => h) ?_ fun _ _ _ _ h => h
    exact fun _ _ _ _ h => ⟨h, trivial⟩
  refine .bind (store32_plic (a := plicPriority1) (c := fun _ => True) (.priority 1) hE (fun _ _ _ h => h)
    ofSetup_priority (by decide) (by decide) (by decide) ?_) fun _ => ?_
  · intro p _
    simp [Plic.Reg.store, Plic.priorityOf, Plic.updateMeip]
  refine .bind (store32_plic (a := plicEnable) .enable hE ofSetup_priority ofSetup_enable (by decide) (by decide)
    (by decide) fun p h => ⟨h, rfl⟩) fun _ => ?_
  refine .bind (store32_plic (a := plicThreshold) .threshold hE ofSetup_enable ofSetup_config (by decide) (by decide)
    (by decide) fun p h => ⟨h.1, h.2, rfl⟩) fun _ => ?_
  refine .bind (Q := fun _ _ => SetUp m) ?_ fun _ => triple_of_gives ?_ hE keeps_setUp
  · exact ((armTimer_triple (R := fun _ _ _ _ => True) htimer).frame gives_armTimer
      (keeps_setup ofSetup_config fun _ h => (hE _ h).1) (keeps_setup ofSetup_config fun _ h => h)).mono
      (fun _ _ _ h => h) (fun _ _ _ _ h => h) fun _ _ _ _ _ => trivial
  exact (gives_store32 (hfar (by decide) (by decide)) _).bind fun _ =>
    (gives_store32 (hfar (by decide) (by decide)) _).bind fun _ => gives_store32 (hfar (by decide) (by decide)) _

/-! ### The handler between the inputs of `main` -/

/-- MTIP has been up. -/
def TimerSeen (tr : Trace υ ι) : Prop := ∃ e ∈ tr, e.post.cpu.level Clint.kCauseTimer = true

/-- What the handler has done so far: the flags say which interrupts came, and nothing is left claimed. -/
structure Tended (v : Vars) (tr : Trace υ ι) (s : RiscvCustomSoc υ ι) : Prop where
  free : s.plic.isClaimed 1 = false
  paired : Paired (claims tr)
  ext : v.extDone = true ↔ .claim 1 ∈ claims tr
  timer : v.timerDone = true → TimerSeen tr
  level : s.cpu.level Clint.kCauseTimer = true → TimerSeen tr

theorem TimerSeen.append (h : TimerSeen tr) (tr' : Trace υ ι) : TimerSeen (tr ++ tr') := by
  obtain ⟨e, he, hl⟩ := h
  exact ⟨e, List.mem_append_left _ he, hl⟩

/-- Every step keeps what is known of the level. -/
theorem keeps_seen (ip : Ip υ ι) (φ : Prop) : Keeps (machine ip) E fun tr s =>
    (φ → TimerSeen tr) ∧ (s.cpu.level Clint.kCauseTimer = true → TimerSeen tr) := by
  rintro tr s op s' o - - ⟨hφ, -⟩
  exact ⟨fun h => (hφ h).append _, fun h => ⟨_, List.mem_append_right _ List.mem_cons_self, h⟩⟩

theorem keeps_tended (ip : Ip υ ι) (hE : ∀ op, E op → ¬ AtClaim op) (v : Vars) : Keeps (machine ip) E (Tended v) := by
  intro tr s op s' o hop hm h
  obtain ⟨hcl, hflag⟩ := quiet_step hm (hE op hop) tr
  obtain ⟨ht, hl⟩ := keeps_seen (E := E) ip _ tr s op s' o hop hm ⟨h.timer, h.level⟩
  exact ⟨hflag.trans h.free, by rw [hcl]; exact h.paired, by rw [hcl]; exact h.ext, ht, hl⟩

/-- One trap. -/
theorem trap_tended (hE : ∀ op, E op → ¬ AtClaim op) (mcause : UInt32) (v : Vars) :
    Triple (machine ip) (.inputs (machine ip) E)
      (fun (_ : Unit) tr s => Tended v tr s ∧ s.cpu.level (code mcause).toNat = true) (trapHandler mcause v)
      (fun w _ => Tended w) (fun _ _ _ _ => True) := by
  have hone (evs₀ : List Plic.Event) := (trapHandler_on (ν := Unit) (K := fun _ _ => True) ip evs₀ hE
    (fun _ _ _ _ _ _ _ h => h) mcause v).frame (Prog.gives_true _)
    (keeps_seen ip (v.timerDone = true ∨ code mcause = 7)) (keeps_seen ip _)
  intro u tr₀ s tr r u' s' hpre hrun
  obtain ⟨ht, hup⟩ := hpre
  have hseen : v.timerDone = true ∨ code mcause = 7 → TimerSeen tr₀ := by
    rintro (h | h)
    · exact ht.timer h
    · rw [h] at hup
      exact ht.level hup
  have := hone (claims tr₀) u tr₀ s tr r u' s' ⟨⟨⟨rfl, ht.free⟩, trivial⟩, hseen, ht.level⟩ hrun
  cases r with
  | error e => exact trivial
  | ok w =>
    obtain ⟨⟨hfree, new, hh, hev, -⟩, hs, hl⟩ := this
    have ha := Answered.of_handled hh
    refine ⟨hfree, ?_, ?_, fun hw => hs ?_, hl⟩
    · rw [hev]
      exact ha.paired ht.paired
    · rw [hev, ha.ext, ht.ext, List.mem_append]
    · rcases ha.timer.1 hw with h | ⟨c, hc, h⟩
      · exact .inl h
      · rw [List.mem_singleton.1 hc] at h
        exact .inr h

end

/-- What happens on the platform besides the accesses of `main` and the handler. -/
def Background {υ ι : Type*} (op : Op υ ι) : Prop := ¬ AtClaim op ∧ KeepsSetup op

/-- `main` up to its loop, and in it, with the handler taken at any point while the level of its cause is up. Each
claim is completed before the next, and `ext_done` says whether there was one. From then on MEIP is up iff the line
of the I2C is, once the PLIC has run for it, and the timer is armed as `arm_timer` says, by `mtime` at the two loads
of it: `timer_done` is not set before the compare time. -/
theorem soc_irq_main {υ ι : Type*} (ip : Ip υ ι) (uart : υ) (i2c : ι) (is : List (Op υ ι)) (os : List Payload)
    (s s' : RiscvCustomSoc υ ι) (tr : Trace υ ι) (v v' : Vars)
    (hreach : Run (machine ip) (new uart i2c) is os s) (hcmp : s.clint.mtimecmp = 0) (hlow : s.cpu.level 7 = false)
    (hfree : s.plic.isClaimed 1 = false) (hv : v.timerDone = false ∧ v.extDone = false)
    (hrun : Exec (machine ip) (.traps (machine ip) Background trapped) setup v s tr (.ok ()) v' s') :
    Paired (claims tr) ∧ s'.plic.isClaimed 1 = false ∧ (v'.extDone = true ↔ .claim 1 ∈ claims tr) ∧
    (s'.plic.onSourcesReady = false → (s'.cpu.level 11 = true ↔ s'.plic.line 1 = true)) ∧
    ∃ m₁ m₂, TwoReads m₁ m₂ tr ∧ s.mtime ≤ m₁ ∧ m₁ ≤ m₂ ∧ m₂ ≤ s'.mtime ∧
      s'.clint.mtimecmp.toNat = 2 ^ 32 * (m₁ / 2 ^ 32) + (m₂ + 100) % 2 ^ 32 ∧
      (m₂ + 100 < 2 ^ 32 → (∀ e ∈ tr, e.post.cpu.level 7 = true → m₂ + 100 ≤ e.post.mtime) ∧
        (v'.timerDone = true → m₂ + 100 ≤ s'.mtime)) := by
  have hquiet : ∀ op : Op υ ι, Background op → ¬ AtClaim op := fun _ h => h.1
  have hback : ∀ op : Op υ ι, Background op ∨ KeepsSetup op → KeepsSetup op := fun _ h => h.elim And.right id
  -- the setup, by the inputs of the background and of the handler
  have hflat := hrun.of_traps gives_trapHandler
  have hset := setup_triple (ν := Unit) ip hback () [] s tr _ () s'
    (disarmed_of (Wired.run hreach) hcmp hlow) hflat
  obtain ⟨⟨m₁, m₂, hi, lo, ⟨h₀, h₁⟩, ⟨hhi, hlo⟩, hreads, hf⟩, hc⟩ := hset
  obtain ⟨hle, hval, hpast⟩ := hf.compare h₁ hhi hlo
  rw [List.nil_append] at hreads hpast
  -- the handler, by the inputs of the background and of `main`
  have hstart : Tended v [] s := by
    refine ⟨hfree, .nil, ?_, fun h => ?_, fun h => ?_⟩
    · rw [hv.2]
      simp [claims]
    · rw [hv.1] at h
      cases h
    · rw [Clint.kCauseTimer, hlow] at h
      cases h
  have htended := Triple.of_keeps gives_setup (stable_traps (H := trapped) (R := fun _ _ _ _ => True)
    (keeps_tended ip hquiet) (trap_tended hquiet)) (keeps_tended ip fun _ h => h) v [] s tr _ v' s' hstart hrun
  rw [List.nil_append] at htended
  have hsteps := (hflat.run (Prog.gives_true _)).2.1
  have hend := hreach.append hsteps.of_traced
  refine ⟨htended.paired, htended.free, htended.ext, fun hdue => ?_, m₁, m₂, hreads, h₀, h₁, hle, hval,
    fun hnear => ?_⟩
  · rw [show (11 : Nat) = Plic.kCauseExternal from rfl, external_level hend hdue, hc.enable, hc.threshold, hc.priority,
      htended.free]
    exact ⟨fun h => h.1, fun h => ⟨h, by decide, by decide, rfl⟩⟩
  · refine ⟨hpast hnear, fun hdone => ?_⟩
    obtain ⟨e, he, hl⟩ := htended.timer hdone
    exact (hpast hnear e he hl).trans (mtime_of_mem hsteps he)

/-- `main`, and in its loop the trap for an interrupt of the I2C. -/
theorem soc_irq_main_trapped : ∃ (tr : Trace Unit Unit) (v' : Vars) (s' : RiscvCustomSoc Unit Unit),
    Exec (machine Ip.idle) (.traps (machine Ip.idle) Background trapped) setup ⟨false, false, 0⟩ (new () ()) tr (.ok ())
      v' s' ∧ v'.extDone = true ∧ .claim 1 ∈ claims tr ∧ Paired (claims tr) ∧ s'.plic.isClaimed 1 = false := by
  have hx : ((setup.alone (machine Ip.idle) (new () ())).bind fun p =>
      (machine Ip.idle p.2.2 (.i2cIrq true)).bind fun q => (machine Ip.idle q.1 .onSources).bind fun r =>
        ((trapHandler 0x8000000B ⟨false, false, 0⟩).alone (machine Ip.idle) r.1).map fun u =>
          (p.2.1.isOk, r.1.cpu.level 11, match u.2.1 with | .ok w => w.extDone | .error _ => false)) =
      some (true, true, true) := by decide +kernel
  obtain ⟨⟨tr₁, r₁, s₁⟩, hset, hx⟩ := Option.bind_eq_some_iff.1 hx
  obtain ⟨⟨s₂, o₂⟩, hline, hx⟩ := Option.bind_eq_some_iff.1 hx
  obtain ⟨⟨s₃, o₃⟩, hrun, hx⟩ := Option.bind_eq_some_iff.1 hx
  obtain ⟨⟨tr₄, r₄, s₄⟩, htrap, hx⟩ := Option.map_eq_some_iff.1 hx
  simp only [Prod.mk.injEq] at hx
  obtain ⟨hok, hup, hdone⟩ := hx
  cases r₁ with
  | error e => cases hok
  | ok a =>
    cases r₄ with
    | error e => cases hdone
    | ok w =>
      have hmain := Exec.of_alone (B := .traps (machine Ip.idle) Background trapped) hset ⟨false, false, 0⟩
      have hraised := (hmain.before (.inl ⟨rfl, _, _, ⟨id, id, id⟩, hline, rfl⟩)).before
        (.inl ⟨rfl, _, _, ⟨id, id, id⟩, hrun, rfl⟩)
      have h := hraised.before (.inr ⟨0x8000000B, hup, .of_alone htrap ()⟩)
      obtain ⟨hp, hf, he, -⟩ := soc_irq_main Ip.idle () () _ _ _ _ _ _ _ .nil rfl rfl rfl ⟨rfl, rfl⟩ h
      exact ⟨_, w, s₄, h, hdone, he.1 hdone, hp, hf⟩

end SocIrqRiscv
end CdcVp
