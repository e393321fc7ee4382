import CdcVp.ClintSlices
import CdcVp.Memory
import CdcVp.PlicLevel
import CdcVp.TimerMove
import CdcVp.Watchdog

/-!
# Transactions that are neither reads nor writes

`memory_tlm` and `watchdog` answer them with a command error. The PLIC, the CLINT and the timer only ask
whether a transaction is a read, so there an ignored command reaches a register as a write; `Inert` says for
each of the three when such a write changes nothing.
-/

namespace CdcVp
open FlatStore LittleEndian Runs ScEvent

/-! ### The PLIC -/

theorem setIfInBounds_eq_self_iff {α : Type*} {k i : Nat} {xs : Vector α k} {x : α} (h : i < k) (a : α) :
    xs.setIfInBounds i x = xs ↔ xs[i]?.getD a = x := by
  rw [Vector.getElem?_eq_getElem h, Option.getD_some]
  constructor
  · intro he
    calc xs[i] = (xs.setIfInBounds i x)[i] := by simp only [he]
      _ = x := Vector.getElem_setIfInBounds_self h
  · rintro rfl
    ext j hj
    rw [Vector.getElem_setIfInBounds]
    split
    · rename_i hij
      simp only [hij]
    · rfl

namespace Plic
variable {n : Nat} {p q : Plic n} {t : Payload} {r : Reg} {v : UInt32}

/-- The states agree on everything but the calls of `set_irq`, and every cause has the same level. -/
structure Unchanged (p q : Plic n) : Prop where
  state : q = { p with cpu := q.cpu }
  level (cause : Nat) : q.cpu.level cause = p.cpu.level cause

/-- MEIP has the level that `update_meip` would drive. -/
def Driven (p : Plic n) : Prop := p.cpu.level kCauseExternal = true ↔ p.AnyEligible

namespace Reg

/-- The registers that take a write. -/
def Stores (n : Nat) : Reg → Prop
  | .priority id => 1 ≤ id ∧ id ≤ n
  | .pending => False
  | .enable | .threshold | .claim => True

/-- A write of `v` leaves the register as it is: the word is there already, or it completes no claimed
source. -/
def Unmoved (p : Plic n) (v : UInt32) : Reg → Prop
  | .priority id => p.priorityOf id = v
  | .pending => True
  | .enable => p.enable = v
  | .threshold => p.threshold = v
  | .claim => 1 ≤ v.toNat ∧ v.toNat ≤ n → p.isClaimed v.toNat = false

end Reg

/-- A write changes nothing: it reaches no register that takes it, or one that it leaves as it is, and
`update_meip` has no change of the lines to show that `on_sources` has yet to see. -/
def Inert (p : Plic n) (t : Payload) : Prop :=
  ∀ (ptr : List UInt8) (r : Reg), t.dataPtr = some ptr → t.dataLength = 4 →
    decode n t.address = some r → r.Stores n →
      r.Unmoved p (wordOf ptr) ∧ (p.onSourcesReady = true → p.Driven)

theorem Unchanged.refl (p : Plic n) : Unchanged p p := ⟨rfl, fun _ => rfl⟩

theorem Reg.stores_of_store (h : r.store p v = some q) : r.Stores n := by
  cases r with
  | priority id =>
    by_contra hno
    have hnone : Reg.store p v (.priority id) = none := if_neg hno
    rw [hnone] at h
    cases h
  | pending => cases h
  | enable | threshold | claim => trivial

theorem Reg.exists_store (h : r.Stores n) (p : Plic n) (v : UInt32) : ∃ q, r.store p v = some q := by
  cases r with
  | priority id => exact ⟨_, if_pos h⟩
  | pending => exact h.elim
  | enable | threshold | claim => exact ⟨_, rfl⟩

theorem completed_eq_self_iff :
    p.completed v = p ↔ (1 ≤ v.toNat ∧ v.toNat ≤ n → p.isClaimed v.toNat = false) := by
  by_cases hv : 1 ≤ v.toNat ∧ v.toNat ≤ n
  swap
  · rw [completed, if_neg hv]
    exact iff_of_true rfl fun h => absurd h hv
  rw [completed, if_pos hv, forall_prop_of_true hv, isClaimed,
    ← setIfInBounds_eq_self_iff (Nat.lt_succ_of_le hv.2)]
  constructor
  · intro h
    exact congrArg Plic.claimed h
  · intro h
    rw [h]

theorem Reg.store_eq_self_iff (h : r.store p v = some q) : q = p ↔ r.Unmoved p v := by
  cases r with
  | priority id =>
    have hid := stores_of_store h
    obtain rfl : { p with priority := p.priority.setIfInBounds id v } = q :=
      Option.some.inj ((if_pos hid).symm.trans h)
    rw [Reg.Unmoved, priorityOf, ← setIfInBounds_eq_self_iff (Nat.lt_succ_of_le hid.2)]
    constructor
    · intro h
      exact congrArg Plic.priority h
    · intro h
      rw [h]
  | pending => cases h
  | enable =>
    cases h
    constructor
    · intro h
      exact (congrArg Plic.enable h).symm
    · rintro rfl
      rfl
  | threshold =>
    cases h
    constructor
    · intro h
      exact (congrArg Plic.threshold h).symm
    · rintro rfl
      rfl
  | claim =>
    obtain rfl : p.completed v = q := Option.some.inj h
    exact completed_eq_self_iff

theorem driven_iff : p.Driven ↔ p.cpu.level kCauseExternal = (List.range' 1 n).any p.eligible := by
  rw [Driven, ← any_eligible_iff, ← Bool.eq_iff_iff]

/-- Re-evaluating MEIP shows unless the registers are the same and the level is the one MEIP has. -/
theorem unchanged_updateMeip_iff (hcpu : q.cpu = p.cpu) : Unchanged p q.updateMeip ↔ q = p ∧ p.Driven := by
  constructor
  · intro h
    have heq : q = p :=
      calc q = { q.updateMeip with cpu := q.cpu } := rfl
        _ = { p with cpu := q.cpu } := congrArg (fun s : Plic n => { s with cpu := q.cpu }) h.state
        _ = p := by rw [hcpu]
    subst heq
    exact ⟨rfl, driven_iff.2 ((IrqPort.level_setIrq_eq_iff _ _ _).1 h.level)⟩
  · rintro ⟨rfl, hd⟩
    exact ⟨rfl, (IrqPort.level_setIrq_eq_iff _ _ _).2 (driven_iff.1 hd)⟩

theorem unchanged_iff (hf : p.Fresh) (hc : t.command ≠ .read) (d : Nat) :
    Unchanged p (p.bTransport t d).1 ↔ p.Inert t := by
  rw [bTransport_fst]
  constructor
  · intro h ptr r hp hl hd hs
    obtain ⟨q, hq⟩ := Reg.exists_store hs p (wordOf ptr)
    have he : p.evaluates (.transport t d) = some q :=
      evaluates_transport.2 ⟨ptr, r, hp, hl, hd, by rw [if_neg hc]; exact hq⟩
    rw [he] at h
    obtain ⟨heq, hdriven⟩ := (unchanged_updateMeip_iff (Reg.store_cpu hq)).1 h
    exact ⟨(Reg.store_eq_self_iff hq).1 heq, fun _ => hdriven⟩
  · intro h
    cases he : p.evaluates (.transport t d) with
    | none => exact .refl p
    | some q =>
      obtain ⟨ptr, r, hp, hl, hd, hq⟩ := evaluates_transport.1 he
      rw [if_neg hc] at hq
      obtain ⟨hkeep, hdriven⟩ := h ptr r hp hl hd (Reg.stores_of_store hq)
      refine (unchanged_updateMeip_iff (Reg.store_cpu hq)).2 ⟨(Reg.store_eq_self_iff hq).2 hkeep, ?_⟩
      cases hready : p.onSourcesReady with
      | false => exact hf hready
      | true => exact hdriven hready

end Plic

/-! ### The CLINT -/

namespace Clint
variable {c c' : Clint} {op : Op} {o : List Event} {t : Payload} {d : Nat} {r : Clint × Payload × Nat}

/-- The states agree on everything but the calls of `set_irq`, and every cause has the same level. -/
structure Unchanged (c c' : Clint) : Prop where
  state : c' = { c with cpu := c'.cpu }
  level (cause : Nat) : c'.cpu.level cause = c.cpu.level cause

/-- A write changes nothing: it leaves bit 0 of `msip` as it is, or it puts the bytes into `mtimecmp` that are
there and `cmp_event_` is to be delivered in the next delta cycle anyway. -/
structure Inert (c : Clint) (t : Payload) : Prop where
  msip (ptr : List UInt8) : t.dataPtr = some ptr → WritesMsip t →
    UInt32.ofNat (value (ptr.take 4)) &&& 1 = c.msip
  mtimecmp : WritesMtimecmp t →
    c.cmpEvent = .delta ∧ ∀ k b, (block t).byteAt k = some b → cells c.mtimecmp k = some b

/-- MSIP shows whether `msip` is set. -/
def SoftwareLevel (c : Clint) : Prop := c.cpu.level kCauseSoftware = true ↔ c.msip ≠ 0

theorem Unchanged.refl (c : Clint) : Unchanged c c := ⟨rfl, fun _ => rfl⟩

theorem SoftwareLevel.congr (hm : c'.msip = c.msip)
    (hl : c'.cpu.level kCauseSoftware = c.cpu.level kCauseSoftware) (h : c.SoftwareLevel) : c'.SoftwareLevel := by
  rw [SoftwareLevel, hm, hl]
  exact h

theorem softwareLevel_step (h : machine c op = some (c', o)) (hc : c.SoftwareLevel) : c'.SoftwareLevel := by
  rcases step_cases h with ⟨t, d, r, rfl, hr, rfl, -⟩ | ⟨rfl, -, rfl, -⟩ | ⟨rfl, -, rfl, -⟩ |
    ⟨rfl, -, -, rfl, -⟩ | ⟨time, rfl, -, -, -, rfl, -⟩ | ⟨rfl, -, -, rfl, -⟩
  · rcases bTransport_inv hr with ⟨-, -, he⟩ | ⟨-, -, ptr, -, he⟩ | ⟨-, -, v, he⟩
    · rwa [he]
    · rw [he, SoftwareLevel, IrqPort.level_setIrq_self, decide_eq_true_eq]
    · rw [he]
      exact hc.congr rfl rfl
  · exact hc.congr rfl rfl
  · refine hc.congr (timerTurn_msip c) ?_
    rw [timerTurn_cpu]
    exact IrqPort.level_setIrq_of_ne _ _ (by decide)
  · exact hc.congr rfl rfl
  · exact hc.congr rfl rfl
  · exact hc.congr rfl rfl

theorem softwareLevel_run {is : List Op} {os : List Event} (h : Run machine new is os c) : c.SoftwareLevel :=
  h.inv SoftwareLevel (iff_of_false (by decide) fun h => h rfl) fun _ _ _ _ => softwareLevel_step

theorem unchanged_iff (hs : c.SoftwareLevel) (h : c.bTransport t d = some r) :
    Unchanged c r.1 ↔ c.Inert t := by
  rcases bTransport_inv h with ⟨hcmp, hmsip, hr⟩ | ⟨hcmp, hmsip, ptr, hp, hr⟩ | ⟨hcmp, hmsip, -⟩
  · rw [hr]
    exact iff_of_true (.refl c) ⟨fun _ _ hw => absurd hw hmsip, fun hw => absurd hw hcmp⟩
  · rw [hr]
    constructor
    · intro hu
      refine ⟨?_, fun hw => absurd hw hcmp⟩
      intro ptr' hp' _
      obtain rfl : ptr = ptr' := Option.some.inj (hp.symm.trans hp')
      exact congrArg Clint.msip hu.state
    · intro hi
      have hm := hi.msip ptr hp hmsip
      rw [hm]
      refine ⟨rfl, (IrqPort.level_setIrq_eq_iff _ _ _).2 ?_⟩
      rw [Bool.eq_iff_iff, decide_eq_true_eq]
      exact hs
  · obtain ⟨w, hr, hcells⟩ := bTransport_cells hcmp h
    rw [hr]
    constructor
    · intro hu
      have hw : w = c.mtimecmp := congrArg Clint.mtimecmp hu.state
      rw [hw] at hcells
      exact ⟨fun _ _ hw => absurd hw hmsip,
        fun _ => ⟨(congrArg Clint.cmpEvent hu.state).symm, Store.write_eq_self_iff.1 hcells.symm⟩⟩
    · intro hi
      obtain ⟨hev, hbytes⟩ := hi.mtimecmp hcmp
      rw [Store.write_eq_self_iff.2 hbytes] at hcells
      rw [cells_inj hcells, ← hev]
      exact .refl c

end Clint

/-! ### The timer -/

namespace TimerThread

/-- `update_reg` wakes the thread. -/
def awaitsUpdate : TimerThread → Bool
  | .disabled | .counting _ => true
  | _ => false

/-- `intr_clear` wakes the thread. -/
def awaitsClear : TimerThread → Bool
  | .counting _ => true
  | _ => false

theorem notifyUpdate_eq_self_iff {t : TimerThread} : t.notifyUpdate = t ↔ t.awaitsUpdate = false := by
  cases t <;> simp [notifyUpdate, awaitsUpdate]

theorem notifyClear_eq_self_iff {t : TimerThread} : t.notifyClear = t ↔ t.awaitsClear = false := by
  cases t <;> simp [notifyClear, awaitsClear]

end TimerThread

namespace Timer
variable {s s' : Timer} {op : Op} {o : List Obs} {t t' : ApbPayload} {adr : UInt64} {data : UInt32}

/-- A write of `data` at `adr` changes nothing: no register is there, or it has what the write leaves in it and
the thread does not wait for the notification. -/
def Unmoved (s : Timer) (adr : UInt64) (data : UInt32) : Prop :=
  if adr = addrCtrl then s.ctrlReg = data &&& 0xF ∧ s.timerThread.awaitsUpdate = false
  else if adr = addrValue then s.valueReg = data ∧ s.timerThread.awaitsUpdate = false
  else if adr = addrReload then s.reloadReg = data ∧ s.valueReg = data ∧ s.timerThread.awaitsUpdate = false
  else if adr = addrIntStatus then
    data &&& 0x1 ≠ 0 → s.intrClearInc = true ∧ s.timerThread.awaitsClear = false
  else True

/-- `b_transport` refuses the transaction, or it is a write that changes nothing. -/
def Inert (s : Timer) (t : ApbPayload) : Prop := ∀ data, wordOf t = some data → s.Unmoved t.address data

/-- An acknowledgement that the thread has yet to see has cleared the status. -/
def AckCleared (s : Timer) : Prop := s.intrClearInc = true → s.intrStatus = false

theorem AckCleared.count (h : CountMove s s' o) (hs : s.AckCleared) : s'.AckCleared := by
  cases h with
  | consume => exact fun hf => absurd hf Bool.false_ne_true
  | closed => exact hs
  | zero flag => exact fun hf => absurd (flag.symm.trans hf) Bool.false_ne_true
  | down => exact hs

theorem AckCleared.head (h : HeadMove s s') (hs : s.AckCleared) : s'.AckCleared := by
  cases h with
  | reset => exact fun _ => rfl
  | disabled => exact hs
  | counting => exact hs

theorem ackCleared_step (h : machine s op = some (s', o)) (hs : s.AckCleared) : s'.AckCleared := by
  cases machine_move h with
  | bus t hb =>
    rcases hb.acks with ⟨-, rfl⟩ | ⟨-, hi, hf, -⟩
    · exact fun _ => rfl
    · intro hinc
      exact hi.trans (hs (hf.symm.trans hinc))
  | prstn | extin | waiting | delta | advance | timeout => exact hs
  | @enter a _ hh => exact (hs.head hh : a.AckCleared)
  | @count _ a _ _ _ hc hh => exact ((hs.count hc).head hh : a.AckCleared)

theorem ackCleared_run {period : Nat} {prstn extin : Bool} {is : List Op} {os : List Obs}
    (h : Run machine (new period prstn extin) is os s) : s.AckCleared :=
  h.inv AckCleared (fun _ => rfl) fun _ _ _ _ => ackCleared_step

theorem writeReg_eq_self_iff (hs : s.AckCleared) :
    (s.writeReg adr data).getD s = s ↔ s.Unmoved adr data := by
  unfold writeReg Unmoved
  by_cases h0 : adr = addrCtrl
  · rw [if_pos h0, if_pos h0, Option.getD_some, ← TimerThread.notifyUpdate_eq_self_iff]
    constructor
    · intro h
      exact ⟨(congrArg ctrlReg h).symm, congrArg timerThread h⟩
    · rintro ⟨hreg, hthread⟩
      rw [← hreg, hthread]
  rw [if_neg h0, if_neg h0]
  by_cases h1 : adr = addrValue
  · rw [if_pos h1, if_pos h1, Option.getD_some, ← TimerThread.notifyUpdate_eq_self_iff]
    constructor
    · intro h
      exact ⟨(congrArg valueReg h).symm, congrArg timerThread h⟩
    · rintro ⟨hreg, hthread⟩
      rw [← hreg, hthread]
  rw [if_neg h1, if_neg h1]
  by_cases h2 : adr = addrReload
  · rw [if_pos h2, if_pos h2, Option.getD_some, ← TimerThread.notifyUpdate_eq_self_iff]
    constructor
    · intro h
      exact ⟨(congrArg reloadReg h).symm, (congrArg valueReg h).symm, congrArg timerThread h⟩
    · rintro ⟨hreload, hvalue, hthread⟩
      rw [hthread]
      nth_rewrite 1 [← hvalue]
      rw [← hreload]
  rw [if_neg h2, if_neg h2]
  by_cases h3 : adr = addrIntStatus
  swap
  · rw [if_neg h3, if_neg h3, Option.getD_none]
    exact iff_of_true rfl trivial
  rw [if_pos h3, if_pos h3]
  by_cases hbit : data &&& 0x1 = 0
  · rw [if_neg (not_not.2 hbit), Option.getD_some]
    exact iff_of_true rfl fun h => absurd hbit h
  · rw [if_pos hbit, Option.getD_some, forall_prop_of_true hbit, ← TimerThread.notifyClear_eq_self_iff]
    constructor
    · intro h
      exact ⟨(congrArg intrClearInc h).symm, congrArg timerThread h⟩
    · rintro ⟨hflag, hthread⟩
      rw [hthread, ← hflag, ← hs hflag]

theorem unchanged_iff (hs : s.AckCleared) (hc : t.command ≠ .read) (h : s.bTransport t = some (s', t', o)) :
    s' = s ↔ s.Inert t := by
  rw [(bTransport_effect h).1]
  cases hd : wordOf t with
  | none =>
    rw [effect_refused (.inr hd)]
    exact iff_of_true rfl fun data hd' => by rw [hd] at hd'; cases hd'
  | some data =>
    rw [effect, hd]
    dsimp only
    rw [if_neg hc, writeReg_eq_self_iff hs]
    constructor
    · intro hu data' hd'
      obtain rfl : data = data' := Option.some.inj (hd.symm.trans hd')
      exact hu
    · intro hi
      exact hi data hd

end Timer

/-! ### The memory and the watchdog -/

section
variable {t : Payload} {u : ApbPayload}

/-- The memory refuses an ignored command, with a command error where it would answer a read. -/
theorem MemoryTlm.bTransport_ignore (hc : t.command = .ignore) (m : MemoryTlm) (d : Nat) :
    ∃ r, r ≠ .ok ∧ m.bTransport t d = (m, { t with responseStatus := r }, d + m.accessLatency) ∧
      (m.Fits t → t.dataPtr.isSome = true → r = .commandError) := by
  unfold bTransport
  dsimp only
  by_cases hf : t.address > m.size ∨ t.dataLength.toUInt64 > m.size - t.address
  · rw [if_pos hf]
    exact ⟨_, by decide, rfl, fun hfits => absurd hf ((m.fits_iff _ _).2 hfits)⟩
  rw [if_neg hf]
  cases hp : t.dataPtr with
  | none => exact ⟨_, by decide, rfl, by simp⟩
  | some buf =>
    dsimp only
    rw [hc]
    exact ⟨_, by decide, rfl, fun _ _ => rfl⟩

/-- So does the watchdog. -/
theorem Watchdog.bTransport_ignore (hc : u.command = .ignore) (w : Watchdog) :
    ∃ r, r ≠ .ok ∧ w.bTransport u = some (w, { u with responseStatus := r }, []) ∧
      (u.byteEnablePtr = none → 4 ≤ u.dataLength → u.dataPtr.isSome = true → r = .commandError) := by
  unfold bTransport
  by_cases hb : u.byteEnablePtr = none
  swap
  · rw [if_pos hb]
    exact ⟨_, by decide, rfl, fun h => absurd h hb⟩
  rw [if_neg (not_not.2 hb)]
  by_cases hl : u.dataLength < 4
  · rw [if_pos hl]
    exact ⟨_, by decide, rfl, fun _ h => absurd hl (UInt32.not_lt.2 h)⟩
  rw [if_neg hl]
  cases hp : u.dataPtr with
  | none => exact ⟨_, by decide, rfl, by simp⟩
  | some data =>
    dsimp only
    rw [hc]
    exact ⟨_, by decide, rfl, fun _ _ _ => rfl⟩

end

/-- An ignored command, with any address, data and length and in every reachable state: the PLIC, the CLINT and
the timer keep their registers, flags, pending events and interrupt levels iff it is one that changes nothing when
taken for a write. The memory and the watchdog refuse it. -/
theorem ignore_unchanged_iff (t : ApbPayload) (d : Nat) (hc : t.command = .ignore) :
    (∀ (n : Nat) (irqIn : Vector Bool n) (is : List (Plic.Op n)) (os : List Plic.Event) (p : Plic n),
      Run (Plic.machine n) (Plic.new irqIn) is os p →
        (Plic.Unchanged p (p.bTransport t.toPayload d).1 ↔ p.Inert t.toPayload)) ∧
    (∀ (is : List Clint.Op) (os : List Clint.Event) (c : Clint) (r : Clint × Payload × Nat),
      Run Clint.machine Clint.new is os c → c.bTransport t.toPayload d = some r →
        (Clint.Unchanged c r.1 ↔ c.Inert t.toPayload)) ∧
    (∀ (period : Nat) (prstn extin : Bool) (is : List Timer.Op) (os : List Timer.Obs) (s : Timer)
      (r : Timer × ApbPayload × List Timer.Obs), Run Timer.machine (Timer.new period prstn extin) is os s →
        s.bTransport t = some r → (r.1 = s ↔ s.Inert t)) ∧
    (∀ m : MemoryTlm, (m.bTransport t.toPayload d).1 = m ∧
      (m.Fits t.toPayload → t.dataPtr.isSome = true →
        (m.bTransport t.toPayload d).2.1.responseStatus = .commandError)) ∧
    ∀ (w : Watchdog) (r : Watchdog × ApbPayload × List Watchdog.Obs), w.bTransport t = some r → r.1 = w ∧
      (t.byteEnablePtr = none → 4 ≤ t.dataLength → t.dataPtr.isSome = true →
        r.2.1.responseStatus = .commandError) := by
  have hne : t.command ≠ .read := by rw [hc]; decide
  refine ⟨?_, ?_, ?_, ?_, ?_⟩
  · intro n irqIn is os p hrun
    exact Plic.unchanged_iff (Plic.fresh_run hrun) hne d
  · intro is os c r hrun hr
    exact Clint.unchanged_iff (Clint.softwareLevel_run hrun) hr
  · rintro period prstn extin is os s ⟨s', t', o⟩ hrun hr
    exact Timer.unchanged_iff (Timer.ackCleared_run hrun) hne hr
  · intro m
    obtain ⟨e, -, hm, hstatus⟩ := MemoryTlm.bTransport_ignore hc m d
    rw [hm]
    exact ⟨rfl, hstatus⟩
  · intro w r hr
    obtain ⟨e, -, hw, hstatus⟩ := w.bTransport_ignore hc
    obtain rfl := Option.some.inj (hw.symm.trans hr)
    exact ⟨rfl, hstatus⟩

/-- The address of the priority of source 3 of the PLIC and of INTSTATUS, which the CLINT does not map. -/
def ignoredZero : ApbPayload where
  command := .ignore
  address := 0x0C
  dataPtr := some [0, 0, 0, 0]
  dataLength := 4

theorem ignore_unchanged_iff_zero :
    Plic.Unchanged (Plic.new (Vector.replicate 3 false))
      ((Plic.new (Vector.replicate 3 false)).bTransport ignoredZero.toPayload 0).1 ∧
    (∀ r, Clint.new.bTransport ignoredZero.toPayload 0 = some r → Clint.Unchanged Clint.new r.1) ∧
    ∀ r, (Timer.new 10 true false).bTransport ignoredZero = some r → r.1 = Timer.new 10 true false := by
  obtain ⟨hplic, hclint, htimer, -, -⟩ := ignore_unchanged_iff ignoredZero 0 rfl
  refine ⟨(hplic 3 _ [] [] _ .nil).2 ?_, fun r hr => (hclint [] [] _ r .nil hr).2 ?_,
    fun r hr => (htimer 10 true false [] [] _ r .nil hr).2 ?_⟩
  · intro ptr r hp _ hd _
    obtain rfl : [0, 0, 0, 0] = ptr := Option.some.inj hp
    obtain rfl : .priority 3 = r := Option.some.inj hd
    have hsame : (Plic.new (Vector.replicate 3 false)).priorityOf 3 = Plic.wordOf [0, 0, 0, 0] := by decide
    exact ⟨hsame, fun h => absurd h (by decide)⟩
  · exact ⟨fun _ _ hw => absurd hw.2.2.1 (by decide), fun hw => absurd hw (by decide)⟩
  · intro data hd
    obtain rfl : 0 = data := Option.some.inj hd
    exact fun h => absurd rfl h

/-- The first word of each register file, written by an ignored command. -/
def ignoredOne (address : UInt64) : ApbPayload where
  command := .ignore
  address := address
  dataPtr := some [1, 0, 0, 0]
  dataLength := 4

/-- In the initial state of each of the three, an ignored command changes a register: the enable word of the
PLIC, `msip` of the CLINT and CTRL of the timer. -/
theorem not_unchanged_ignored :
    (¬ ∀ (n : Nat) (irqIn : Vector Bool n) (is : List (Plic.Op n)) (os : List Plic.Event) (p : Plic n)
      (t : Payload) (d : Nat), Run (Plic.machine n) (Plic.new irqIn) is os p → t.command = .ignore →
        Plic.Unchanged p (p.bTransport t d).1) ∧
    (¬ ∀ (is : List Clint.Op) (os : List Clint.Event) (c : Clint) (t : Payload) (d : Nat)
      (r : Clint × Payload × Nat), Run Clint.machine Clint.new is os c → t.command = .ignore →
        c.bTransport t d = some r → Clint.Unchanged c r.1) ∧
    ¬ ∀ (period : Nat) (prstn extin : Bool) (is : List Timer.Op) (os : List Timer.Obs) (s : Timer)
      (t : ApbPayload) (r : Timer × ApbPayload × List Timer.Obs),
        Run Timer.machine (Timer.new period prstn extin) is os s → t.command = .ignore →
          s.bTransport t = some r → r.1 = s := by
  refine ⟨?_, ?_, ?_⟩
  · intro h
    have hu := h 1 (Vector.replicate 1 false) [] [] _ (ignoredOne Plic.kEnable).toPayload 0 .nil rfl
    exact absurd (congrArg Plic.enable hu.state) (by decide)
  · intro h
    have hu := h [] [] _ (ignoredOne Clint.kRegMsip).toPayload 0 _ .nil rfl rfl
    exact absurd (congrArg Clint.msip hu.state) (by decide)
  · intro h
    have hu := h 10 true false [] [] _ (ignoredOne Timer.addrCtrl) _ .nil rfl rfl
    exact absurd (congrArg Timer.ctrlReg hu) (by decide)

end CdcVp
