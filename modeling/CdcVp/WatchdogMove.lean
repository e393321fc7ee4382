import CdcVp.Watchdog

/-!
# The moves of the watchdog

`Move` lists what a step of the machine can do, with the state it leaves written out, and `TickMove` what a
tick of the counter does.
-/

namespace CdcVp
open FlatStore LittleEndian Runs

namespace Watchdog
variable {w w' : Watchdog} {op : Op} {o : List Obs}

/-- RIS is set. -/
def Ris (w : Watchdog) : Prop := w.ris &&& risAsserted ≠ 0

instance (w : Watchdog) : Decidable w.Ris := by unfold Ris; infer_instance

/-- What a transaction does. -/
inductive BusMove (w : Watchdog) : Watchdog → List Obs → Prop
  | ignored : BusMove w w []
  | read (addr v : UInt32) : BusMove w w.updateOutputs [.read addr v]
  | lock (data : UInt32) : BusMove w { w with locked := data ≠ lockUnlockValue } []
  | load (data : UInt32) (unlocked : w.locked = false) : BusMove w { w with load := data }.reloadCounter []
  | control (data c : UInt32) (unlocked : w.locked = false) (hc : c = w.counter ∨ c = w.load) :
      BusMove w { w with control := data &&& controlWritableMask, counter := c }.updateOutputs []
  | intClr (unlocked : w.locked = false) : BusMove w w.clearInterrupt [.intClr]

theorem writeControl_move (unlocked : w.locked = false) (data : UInt32) : BusMove w (w.writeControl data) [] := by
  unfold writeControl
  dsimp only
  split
  · exact .control data w.load unlocked (.inr rfl)
  · exact .control data w.counter unlocked (.inl rfl)

theorem writeReg_move {addr data : UInt32} (h : w.writeReg addr data = (w', o)) : BusMove w w' o := by
  unfold writeReg at h
  rcases ite_eq_iff.1 h with ⟨-, h⟩ | ⟨-, h⟩
  · cases h
    exact .lock data
  rcases ite_eq_iff.1 h with ⟨-, h⟩ | ⟨hunlocked, h⟩
  · cases h
    exact .ignored
  have hu : w.locked = false := Bool.eq_false_iff.2 hunlocked
  rcases ite_eq_iff.1 h with ⟨-, h⟩ | ⟨-, h⟩
  · cases h
    exact .load data hu
  rcases ite_eq_iff.1 h with ⟨-, h⟩ | ⟨-, h⟩
  · cases h
    exact writeControl_move hu data
  rcases ite_eq_iff.1 h with ⟨-, h⟩ | ⟨-, h⟩ <;> cases h
  · exact .intClr hu
  · exact .ignored

theorem bTransport_move {t t' : ApbPayload} (h : w.bTransport t = some (w', t', o)) : BusMove w w' o := by
  unfold bTransport at h
  split at h
  · cases h
    exact .ignored
  split at h
  · cases h
    exact .ignored
  dsimp only at h
  split at h
  · cases h
    exact .ignored
  split at h
  · split at h
    · cases h
    · cases h
      exact .read _ _
  · split at h
    · cases h
    · cases h
      exact writeReg_move rfl
  · cases h
    exact .ignored

/-- A transaction that is not a write does nothing, or refreshes the outputs for a read. -/
theorem bTransport_not_write {t t' : ApbPayload} (hc : t.command ≠ .write)
    (h : w.bTransport t = some (w', t', o)) :
    w' = w ∧ o = [] ∨ w' = w.updateOutputs ∧ ∃ addr v, o = [.read addr v] := by
  unfold bTransport at h
  split at h
  · cases h
    exact .inl ⟨rfl, rfl⟩
  split at h
  · cases h
    exact .inl ⟨rfl, rfl⟩
  dsimp only at h
  split at h
  · cases h
    exact .inl ⟨rfl, rfl⟩
  split at h
  · split at h <;> cases h
    exact .inr ⟨rfl, _, _, rfl⟩
  · rename_i hw
    exact absurd hw hc
  · cases h
    exact .inl ⟨rfl, rfl⟩

/-- The register of a transaction: 12 bits of the address. -/
def addrOf (t : ApbPayload) : UInt32 := (t.address &&& 0xFFF).toUInt32

/-- The word of a write that passes the checks of `b_transport`. -/
def wordOf (t : ApbPayload) : Option UInt32 :=
  if t.byteEnablePtr ≠ none ∨ t.dataLength < 4 then none
  else t.dataPtr.map fun data => UInt32.ofNat (value (data.take 4))

/-- A write does nothing, or writes its word. -/
theorem bTransport_write {t t' : ApbPayload} (hc : t.command = .write)
    (h : w.bTransport t = some (w', t', o)) :
    (wordOf t = none ∧ w' = w ∧ o = []) ∨
      ∃ data, wordOf t = some data ∧ w.writeReg (addrOf t) data = (w', o) := by
  unfold bTransport at h
  split at h
  · rename_i hb
    cases h
    exact .inl ⟨if_pos (.inl hb), rfl, rfl⟩
  split at h
  · rename_i hl
    cases h
    exact .inl ⟨if_pos (.inr hl), rfl, rfl⟩
  rename_i hb hl
  have hword : wordOf t = t.dataPtr.map fun data => UInt32.ofNat (value (data.take 4)) :=
    if_neg (not_or.2 ⟨hb, hl⟩)
  dsimp only at h
  split at h
  · rename_i hn
    cases h
    exact .inl ⟨by rw [hword, hn]; rfl, rfl, rfl⟩
  rename_i data hd
  rw [hc] at h
  dsimp only at h
  split at h
  · cases h
  · cases h
    exact .inr ⟨_, by rw [hword, hd]; rfl, rfl⟩

/-- What a tick does: nothing, a decrement, the first timeout, a timeout with RESEN off, or the reset. -/
inductive TickMove (w : Watchdog) : Watchdog → Prop
  | off (h : w.interruptEnabled = false ∨ w.resetAsserted = true) : TickMove w w
  | count (h : w.counter ≠ 0) : TickMove w { w with counter := w.counter - 1 }
  | first (zero : w.counter = 0) (ris : ¬ w.Ris) (reset : w.resetAsserted = false) :
      TickMove w { w with ris := risAsserted }.updateOutputs.reloadCounter
  | again (zero : w.counter = 0) (ris : w.Ris) (reset : w.resetAsserted = false) : TickMove w w.reloadCounter
  | reset (inten : w.interruptEnabled = true) (resen : w.resetEnabled = true) (zero : w.counter = 0)
      (ris : w.Ris) (reset : w.resetAsserted = false) :
      TickMove w { w with resetAsserted := true }.updateOutputs

theorem tick_move (w : Watchdog) : TickMove w w.tick := by
  unfold tick
  split
  · rename_i h
    exact .off h
  rename_i hon
  obtain ⟨hinten, hreset⟩ := not_or.1 hon
  have hreset : w.resetAsserted = false := Bool.eq_false_iff.2 hreset
  split
  · rename_i hzero
    unfold handleTimeout
    split
    · rename_i hris
      split
      · rename_i hresen
        exact .reset (Bool.not_eq_false _ ▸ hinten) hresen hzero hris hreset
      · exact .again hzero hris hreset
    · rename_i hris
      exact .first hzero hris hreset
  · rename_i hne
    exact .count hne

/-- What a step of the machine does. -/
inductive Move (w : Watchdog) : Op → Watchdog → List Obs → Prop
  | bus {w' : Watchdog} {o : List Obs} (t : ApbPayload) (h : BusMove w w' o) : Move w (.transport t) w' o
  | start (start : w.counterThread = .start) :
      Move w .counterThread { w with counterThread := .waiting (w.now + w.tickPeriod) } []
  | tick {w' : Watchdog} (woken : w.counterThread = .woken) (h : TickMove w w') :
      Move w .counterThread { w' with counterThread := .waiting (w.now + w.tickPeriod) } []
  | driveOutputs (ready : w.driveOutputsReady = true) :
      Move w .driveOutputs { w with driveOutputsReady := false }.driveOutputs []
  | delta (idle : w.Idle) : Move w .delta w.deltaCycle []
  | advance (time wake : Nat) (waiting : w.counterThread = .waiting wake) (settled : w.Settled)
      (later : w.now < time) (le : time ≤ wake) : Move w (.advance time)
        { w with now := time, counterThread := if time = wake then .woken else .waiting wake }
        [.outputs w.irq w.resetO]

theorem machine_move (h : machine w op = some (w', o)) : Move w op w' o := by
  cases op with
  | transport t =>
    obtain ⟨⟨a, t', o'⟩, hb, heq⟩ := Option.map_eq_some_iff.1 h
    cases heq
    exact .bus t (bTransport_move hb)
  | counterThread =>
    simp only [machine] at h
    split at h
    · rename_i hs
      cases h
      exact .start hs
    · rename_i hw
      cases h
      exact .tick hw (tick_move w)
    · cases h
  | driveOutputs =>
    simp only [machine] at h
    split at h
    · rename_i hr
      cases h
      exact .driveOutputs hr
    · cases h
  | delta =>
    simp only [machine] at h
    split at h
    · rename_i hi
      cases h
      exact .delta hi
    · cases h
  | advance time =>
    simp only [machine] at h
    split at h
    · rename_i wake hw
      split at h
      · rename_i hs
        cases h
        exact .advance time wake hw hs.1 hs.2.1 hs.2.2
      · cases h
    · cases h

/-! ### Clearing the interrupt -/

/-- A write of WDOG_INTCLR that passes the checks. -/
def WritesIntClr (t : ApbPayload) : Prop :=
  t.command = .write ∧ addrOf t = wdogIntClr ∧ wordOf t ≠ none

/-- A write that passes the checks and has its four bytes writes its word. -/
theorem machine_write {t : ApbPayload} {data : UInt32} (hc : t.command = .write) (hd : wordOf t = some data)
    (hbuf : ∀ bs, t.dataPtr = some bs → 4 ≤ bs.length) :
    machine w (.transport t) = some (w.writeReg (addrOf t) data) := by
  unfold wordOf at hd
  split at hd
  · cases hd
  rename_i hchecks
  obtain ⟨hbe, hlen⟩ := not_or.1 hchecks
  obtain ⟨bs, hbs, rfl⟩ := Option.map_eq_some_iff.1 hd
  have hshort : ¬ bs.length < 4 := Nat.not_lt.2 (hbuf bs hbs)
  simp only [machine, bTransport, if_neg hbe, if_neg hlen, hbs, hc, if_neg hshort, Option.map_some, addrOf]

theorem writeReg_intClr (unlocked : w.locked = false) (data : UInt32) :
    w.writeReg wdogIntClr data = (w.clearInterrupt, [.intClr]) := by
  rw [writeReg, if_neg (by decide), unlocked, if_neg Bool.false_ne_true, if_neg (by decide), if_neg (by decide),
    if_pos rfl]

theorem addr_of_intClr {addr data : UInt32} (h : w.writeReg addr data = (w', o)) (ho : .intClr ∈ o) :
    w.locked = false ∧ addr = wdogIntClr := by
  unfold writeReg at h
  split at h
  · cases h
    cases ho
  split at h
  · cases h
    cases ho
  rename_i hlocked
  split at h
  · cases h
    cases ho
  split at h
  · cases h
    cases ho
  split at h
  · rename_i haddr
    exact ⟨Bool.eq_false_iff.2 hlocked, haddr⟩
  · cases h
    cases ho

/-- The interrupt is cleared by the writes of WDOG_INTCLR that come unlocked, and by nothing else. -/
theorem intClr_iff (h : machine w op = some (w', o)) :
    .intClr ∈ o ↔ w.locked = false ∧ ∃ t, op = .transport t ∧ WritesIntClr t := by
  cases op with
  | transport t =>
    obtain ⟨⟨a, t', o'⟩, hb, heq⟩ := Option.map_eq_some_iff.1 h
    cases heq
    constructor
    · intro ho
      have hc : t.command = .write := by
        by_contra hc
        rcases bTransport_not_write hc hb with ⟨-, rfl⟩ | ⟨-, addr, v, rfl⟩ <;> simp at ho
      rcases bTransport_write hc hb with ⟨-, -, rfl⟩ | ⟨data, hd, hw⟩
      · cases ho
      · obtain ⟨hu, ha⟩ := addr_of_intClr hw ho
        refine ⟨hu, t, rfl, hc, ha, ?_⟩
        rw [hd]
        exact Option.some_ne_none data
    · rintro ⟨hu, t₁, ht, hc, ha, hd⟩
      cases ht
      rcases bTransport_write hc hb with ⟨hn, -⟩ | ⟨data, -, hw⟩
      · exact absurd hn hd
      · rw [ha, writeReg_intClr hu] at hw
        cases hw
        exact List.mem_singleton_self _
  | counterThread | driveOutputs | delta | advance =>
    have ho : .intClr ∉ o := by
      cases machine_move h <;> simp
    refine iff_of_false ho ?_
    rintro ⟨-, t, ht, -⟩
    cases ht

end Watchdog
end CdcVp
