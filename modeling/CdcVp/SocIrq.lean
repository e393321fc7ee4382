import CdcVp.LittleEndian
import CdcVp.Programs
import CdcVp.SocLevel

/-!
# The firmware `soc_irq_riscv`

What `main` and `trap_handler` do on the bus. A load or store of a device register is one transaction of its width,
and a fault ends the program. The flags that the two share are the variables of the program; the code, the stack and
the flags themselves live in RAM, and what the hart does there is among the other inputs. `trapped` is the handler on
a hart that takes an interrupt only while its level is up, whatever `mie` and `mstatus` say.
-/

namespace CdcVp
open LittleEndian Programs Runs

namespace SocIrqRiscv
open RiscvCustomSoc

/-- A program of the hart. Its exception is the answer to the access that faults. -/
abbrev Fw (υ ι α : Type*) := Prog (Op υ ι) Payload Payload α

abbrev Trace (υ ι : Type*) := List (Step (RiscvCustomSoc υ ι) (Op υ ι) Payload)

def uartTx : UInt64 := 0x10000000
def clintMtimecmpLo : UInt64 := 0x02004000
def clintMtimecmpHi : UInt64 := 0x02004004
def clintMtimeLo : UInt64 := 0x0200BFF8
def clintMtimeHi : UInt64 := 0x0200BFFC
def plicPriority1 : UInt64 := 0x0C000004
def plicEnable : UInt64 := 0x0C002000
def plicThreshold : UInt64 := 0x0C200000
def plicClaim : UInt64 := 0x0C200004
def i2cIer : UInt64 := 0x10010000
def i2cIctlr : UInt64 := 0x10010004
def i2cIier : UInt64 := 0x1001004C
def i2cIicr : UInt64 := 0x10010050
def mieMtie : UInt32 := (1 : UInt32) <<< 7

section
variable {υ ι : Type*}

/-- One access of the hart. -/
def access (t : Payload) : Fw υ ι Payload :=
  .call (.transport t 0) fun o =>
    if (o.headD t).responseStatus = .ok then .ret (o.headD t) else .throw (o.headD t)

def loadOf (a : UInt64) : Payload := ⟨.read, a, some [0, 0, 0, 0], 4, .incomplete, false⟩

def storeOf (a : UInt64) (n : UInt32) (bs : List UInt8) : Payload := ⟨.write, a, some bs, n, .incomplete, false⟩

def load32 (a : UInt64) : Fw υ ι UInt32 :=
  (access (loadOf a)).bind fun r => .ret (Plic.wordOf (r.dataPtr.getD []))

def store32 (a : UInt64) (v : UInt32) : Fw υ ι Unit :=
  (access (storeOf a 4 (bytes 4 v.toNat))).bind fun _ => .ret ()

def store8 (a : UInt64) (v : UInt8) : Fw υ ι Unit := (access (storeOf a 1 [v])).bind fun _ => .ret ()

/-- `uart_puts`, on the bytes before the terminator. -/
def uartPuts (s : List UInt8) : Fw υ ι Unit := .forEach (store8 uartTx) s

def text (s : String) : List UInt8 := s.toUTF8.toList

/-- What the handler keeps for `main`: `timer_done`, `ext_done` and `mie`. -/
structure Vars where
  timerDone : Bool
  extDone : Bool
  mie : UInt32
deriving DecidableEq, Repr

def code (mcause : UInt32) : UInt32 := mcause &&& 0x7FFFFFFF

/-- What the handler does for the source that it claimed. -/
def serve (id : UInt32) (v : Vars) : Fw υ ι Vars :=
  if id = 1 then do
    store32 i2cIicr 0x1
    uartPuts (text "EXT IRQ\n")
    return { v with extDone := true }
  else return v

def trapHandler (mcause : UInt32) (v : Vars) : Fw υ ι Vars :=
  if code mcause = 7 then do
    uartPuts (text "TIMER\n")
    return { v with timerDone := true, mie := v.mie &&& ~~~mieMtie }
  else if code mcause = 11 then do
    let id ← load32 plicClaim
    let v ← serve id v
    store32 plicClaim id
    return v
  else return v

/-- Arm the CLINT timer for 100 us from now. -/
def armTimer : Fw υ ι Unit := do
  let hi ← load32 clintMtimeHi
  let lo ← load32 clintMtimeLo
  store32 clintMtimecmpHi hi
  store32 clintMtimecmpLo (lo + 100)

/-- `main` up to its loop. -/
def setup : Fw υ ι Unit := do
  uartPuts (text "Hello from custom SoC\n")
  store32 plicPriority1 1
  store32 plicEnable ((1 : UInt32) <<< 1)
  store32 plicThreshold 0
  armTimer
  store32 i2cIier 0x1
  store32 i2cIer 0x1
  store32 i2cIctlr 0x1

/-- The handler on the hart: an interrupt is taken while the level of its cause is up. -/
def trapped : Handler (RiscvCustomSoc υ ι) (Op υ ι) Payload Payload UInt32 Vars where
  taken mcause _ s := s.cpu.level (code mcause).toNat = true
  prog := trapHandler

/-! ### What inputs are about -/

/-- A transaction at the claim/complete register. -/
def AtClaim : Op υ ι → Prop
  | .transport t _ => t.address = plicClaim
  | _ => False

/-- A store to the PLIC other than a complete. -/
def SetsPlic : Op υ ι → Prop
  | .transport t _ => t.command ≠ .read ∧ plicRange.contains t.address = true ∧ t.address ≠ plicClaim
  | _ => False

/-- A store to `mtimecmp`. -/
def SetsTimer : Op υ ι → Prop
  | .transport t _ => clintRange.contains t.address = true ∧ Clint.WritesMtimecmp (clintRange.toLocal t)
  | _ => False

/-- The input leaves what `main` sets up to `main`. -/
def KeepsSetup (op : Op υ ι) : Prop := ¬ SetsPlic op ∧ ¬ SetsTimer op

end

/-! ### One access -/

section
variable {υ ι ν : Type*} {ip : Ip υ ι} {B : Between (RiscvCustomSoc υ ι) (Op υ ι) Payload Payload ν}
  {P : Assn (RiscvCustomSoc υ ι) (Op υ ι) Payload ν} {Q R : Payload → Assn (RiscvCustomSoc υ ι) (Op υ ι) Payload ν}
  {t : Payload} {G : Op υ ι → Prop} {a : UInt64}

/-- An access goes from a stable assertion to what the answer makes of it. -/
theorem access_triple (hP : Stable B P R) (hQ : ∀ x, Stable B (Q x) R) (hR : ∀ e, Stable B (R e) R)
    (hi : ∀ v tr s r, P v tr s → machine ip s (.transport t 0) = some (r.1, [r.2.1]) → Served ip s t 0 r →
      (r.2.1.responseStatus = .ok → Q r.2.1 v (tr ++ [⟨s, .transport t 0, r.1, [r.2.1]⟩]) r.1) ∧
      (r.2.1.responseStatus ≠ .ok → R r.2.1 v (tr ++ [⟨s, .transport t 0, r.1, [r.2.1]⟩]) r.1)) :
    Triple (machine ip) B P (access t) Q R := by
  refine Triple.call (N := fun o v tr s => if (o.headD t).responseStatus = .ok then Q (o.headD t) v tr s
    else R (o.headD t) v tr s) hP ?_ ?_
  · intro v tr s s' o hpre h
    obtain ⟨r, hr, heq⟩ := Option.map_eq_some_iff.1 h
    obtain ⟨r', hr', hs⟩ := bTransport_served ip s t 0
    obtain rfl := Option.some.inj (hr.symm.trans hr')
    cases heq
    obtain ⟨hok, hno⟩ := hi v tr s r hpre (by rw [machine, hr]; rfl) hs
    show if r.2.1.responseStatus = .ok then _ else _
    split
    · exact hok ‹_›
    · exact hno ‹_›
  · intro o
    by_cases ho : (o.headD t).responseStatus = .ok
    · simp only [ho, if_true]
      exact Triple.ret (hQ _) fun _ _ _ h => h
    · simp only [ho, if_false]
      exact Triple.throw (hR _)

/-- An access that is always answered OK. -/
theorem access_answered {E : Op υ ι → Prop} (hP : ∀ v, Keeps (machine ip) E (P v))
    (hQ : ∀ x v, Keeps (machine ip) E (Q x v))
    (hi : ∀ v tr s r, P v tr s → machine ip s (.transport t 0) = some (r.1, [r.2.1]) → Served ip s t 0 r →
      r.2.1.responseStatus = .ok ∧ Q r.2.1 v (tr ++ [⟨s, .transport t 0, r.1, [r.2.1]⟩]) r.1) :
    Triple (machine ip) (.inputs (machine ip) E) P (access t) Q R := by
  refine Triple.mono (R := fun _ _ _ _ => False) (access_triple (stable_inputs hP) (fun x => stable_inputs (hQ x))
    (fun _ => stable_inputs fun _ _ _ _ _ _ _ _ h => h) ?_) (fun _ _ _ h => h) (fun _ _ _ _ h => h)
    fun _ _ _ _ h => h.elim
  intro v tr s r hpre hm hs
  obtain ⟨hok, hq⟩ := hi v tr s r hpre hm hs
  exact ⟨fun _ => hq, fun hno => absurd hok hno⟩

theorem gives_access (h : G (.transport t 0)) : (access t : Fw υ ι Payload).Gives G := by
  refine ⟨h, fun o => ?_⟩
  by_cases ho : (o.headD t).responseStatus = .ok
  · simp only [ho, if_true, Prog.Gives]
  · simp only [ho, if_false, Prog.Gives]

theorem gives_load32 (h : G (.transport (loadOf a) 0)) : (load32 a : Fw υ ι UInt32).Gives G :=
  (gives_access h).bind fun _ => trivial

theorem gives_store32 (h : ∀ n bs, G (.transport (storeOf a n bs) 0)) (v : UInt32) :
    (store32 a v : Fw υ ι Unit).Gives G :=
  (gives_access (h _ _)).bind fun _ => trivial

theorem gives_store8 (h : ∀ n bs, G (.transport (storeOf a n bs) 0)) (v : UInt8) :
    (store8 a v : Fw υ ι Unit).Gives G :=
  (gives_access (h _ _)).bind fun _ => trivial

theorem gives_uartPuts (h : ∀ n bs, G (.transport (storeOf uartTx n bs) 0)) (s : List UInt8) :
    (uartPuts s : Fw υ ι Unit).Gives G :=
  .forEach (gives_store8 h) s

/-- The handler leaves what `main` has set up. -/
theorem gives_trapHandler (mcause : UInt32) (v : Vars) : (trapHandler mcause v : Fw υ ι Vars).Gives KeepsSetup := by
  have hfar {a : UInt64} (h₁ : ¬ plicRange.contains a = true) (h₂ : ¬ clintRange.contains a = true) (n : UInt32)
      (bs : List UInt8) : KeepsSetup (.transport (storeOf a n bs) 0 : Op υ ι) := ⟨fun h => h₁ h.2.1, fun h => h₂ h.1⟩
  have hclaim (n : UInt32) (bs : List UInt8) : KeepsSetup (.transport (storeOf plicClaim n bs) 0 : Op υ ι) :=
    ⟨fun h => h.2.2 rfl, fun h => absurd h.1 (show ¬ clintRange.contains plicClaim = true by decide)⟩
  have huart := hfar (a := uartTx) (by decide) (by decide)
  have hi2c := hfar (a := i2cIicr) (by decide) (by decide)
  unfold trapHandler
  split
  · refine (gives_uartPuts huart _).bind fun _ => ?_
    exact trivial
  split
  · refine (gives_load32 ⟨fun h => h.1 rfl, fun h => h.2.1 rfl⟩).bind fun id =>
      Prog.Gives.bind (f := fun w => _) ?_ fun w => (gives_store32 hclaim _).bind fun _ => ?_
    · unfold serve
      split
      · refine (gives_store32 hi2c _).bind fun _ => (gives_uartPuts huart _).bind fun _ => ?_
        exact trivial
      · exact trivial
    · exact trivial
  · exact trivial

/-- `main` leaves the claim/complete register to the handler. -/
theorem gives_setup : (setup : Fw υ ι Unit).Gives fun op => ¬ AtClaim op := by
  have hno {a : UInt64} (ha : a ≠ plicClaim) (n : UInt32) (bs : List UInt8) :
      ¬ AtClaim (.transport (storeOf a n bs) 0 : Op υ ι) := ha
  have hload {a : UInt64} (ha : a ≠ plicClaim) : ¬ AtClaim (.transport (loadOf a) 0 : Op υ ι) := ha
  exact (gives_uartPuts (hno (by decide)) _).bind fun _ =>
    (gives_store32 (hno (by decide)) _).bind fun _ => (gives_store32 (hno (by decide)) _).bind fun _ =>
    (gives_store32 (hno (by decide)) _).bind fun _ =>
    Prog.Gives.bind ((gives_load32 (hload (by decide))).bind fun _ => (gives_load32 (hload (by decide))).bind fun _ =>
      (gives_store32 (hno (by decide)) _).bind fun _ => gives_store32 (hno (by decide)) _) fun _ =>
    (gives_store32 (hno (by decide)) _).bind fun _ => (gives_store32 (hno (by decide)) _).bind fun _ =>
    gives_store32 (hno (by decide)) _

end

end SocIrqRiscv
end CdcVp
