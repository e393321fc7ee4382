import CdcVp.Plic

/-!
# The PLIC's register file

`decode` is the address decoder of `b_transport`, `Reg.load`, `Reg.touch` and `Reg.store` what an access does
to the register it selects; `access_eq` says that the three are the access. `evaluates` is the register file
that `update_meip` looks at when an operation of the controller calls it (`step_cases`).
-/

namespace CdcVp
open FlatStore LittleEndian Runs

namespace Plic
variable {n : Nat}

inductive Reg
  | priority (id : Nat)
  | pending
  | enable
  | threshold
  | claim
deriving DecidableEq, Repr

/-- The register an address selects. -/
def decode (n : Nat) (addr : UInt64) : Option Reg :=
  if addr ≥ kPriorityBase ∧ addr < kPriorityBase + (4 * (UInt32.ofNat n + 1)).toUInt64 then
    some (.priority (addr / 4).toUInt32.toNat)
  else if addr = kPending then some .pending
  else if addr = kEnable then some .enable
  else if addr = kThreshold then some .threshold
  else if addr = kClaim then some .claim
  else none

/-- The registers once the best source is marked as claimed. -/
def marked (p : Plic n) : Plic n :=
  if p.best ≠ 0 then { p with claimed := p.claimed.setIfInBounds p.best true } else p

/-- The registers once the source written to the claim/complete register is completed. -/
def completed (p : Plic n) (value : UInt32) : Plic n :=
  if value.toNat ≥ 1 ∧ value.toNat ≤ n then
    { p with claimed := p.claimed.setIfInBounds value.toNat false }
  else p

/-- What a sequence of operations that only claims and completes leaves alone. -/
structure SameSetup (p q : Plic n) : Prop where
  priority : q.priority = p.priority
  enable : q.enable = p.enable
  threshold : q.threshold = p.threshold

namespace Reg

/-- The addresses that select a register. A priority word is selected by each of its four bytes. -/
def Selects (n : Nat) (a : UInt64) : Reg → Prop
  | .priority id => id ≤ n ∧ a.toNat / 4 = id
  | .pending => a = kPending
  | .enable => a = kEnable
  | .threshold => a = kThreshold
  | .claim => a = kClaim

/-- What a read returns. -/
def load (p : Plic n) : Reg → UInt32
  | .priority id => if id ≤ n then p.priorityOf id else 0
  | .pending => p.pending
  | .enable => p.enable
  | .threshold => p.threshold
  | .claim => UInt32.ofNat p.best

/-- The registers a read leaves, where it has an effect. -/
def touch (p : Plic n) : Reg → Option (Plic n)
  | .claim => some p.marked
  | _ => none

/-- The registers a write leaves, where it has an effect. -/
def store (p : Plic n) (value : UInt32) : Reg → Option (Plic n)
  | .priority id =>
    if id ≥ 1 ∧ id ≤ n then some { p with priority := p.priority.setIfInBounds id value } else none
  | .pending => none
  | .enable => some { p with enable := value }
  | .threshold => some { p with threshold := value }
  | .claim => some (p.completed value)

end Reg

/-- The registers that `update_meip` looks at, for the operations that call it. -/
def evaluates (p : Plic n) : Op n → Option (Plic n)
  | .transport t _ =>
    match t.dataPtr with
    | none => none
    | some ptr =>
      if t.dataLength ≠ 4 then none
      else (decode n t.address).bind fun r => if t.command = .read then r.touch p else r.store p (wordOf ptr)
  | .lines _ => none
  | .onSources => if p.onSourcesReady then some { p with onSourcesReady := false } else none

section
variable {p p' q : Plic n} {op : Op n} {o : List Event} {r : Reg} {v : UInt32}

/-- An access selects a register and reads or writes it. -/
theorem access_eq (p : Plic n) (addr : UInt64) (isRead : Bool) (v : UInt32) :
    p.access addr isRead v = (decode n addr).map fun r =>
      if isRead then (((r.touch p).map updateMeip).getD p, r.load p)
      else (((r.store p v).map updateMeip).getD p, v) := by
  unfold access decode
  split
  · cases isRead with
    | true => rfl
    | false =>
      rw [if_neg Bool.false_ne_true]
      split
      · rename_i hid
        rw [Option.map_some, if_neg Bool.false_ne_true, Reg.store, if_pos hid]
        rfl
      · rename_i hid
        rw [Option.map_some, if_neg Bool.false_ne_true, Reg.store, if_neg hid]
        rfl
  · split
    · cases isRead <;> rfl
    · split
      · cases isRead <;> rfl
      · split
        · cases isRead <;> rfl
        · split
          · cases isRead <;> rfl
          · rfl

variable {t : Payload} {ptr : List UInt8} {d : Nat} {a : UInt64}

theorem SameSetup.refl (p : Plic n) : SameSetup p p := ⟨rfl, rfl, rfl⟩

theorem SameSetup.trans {p q r : Plic n} (h : SameSetup p q) (h' : SameSetup q r) : SameSetup p r :=
  ⟨h'.priority.trans h.priority, h'.enable.trans h.enable, h'.threshold.trans h.threshold⟩

theorem setup_marked (p : Plic n) : SameSetup p p.marked := by
  unfold marked
  split <;> exact ⟨rfl, rfl, rfl⟩

theorem setup_completed (p : Plic n) (v : UInt32) : SameSetup p (p.completed v) := by
  unfold completed
  split <;> exact ⟨rfl, rfl, rfl⟩

/-! ### The decoder -/

theorem decode_iff (hn : n ≤ 31) : decode n a = some r ↔ r.Selects n a := by
  have hend := priorityEnd_toNat hn
  have hbase : a ≥ kPriorityBase := UInt64.zero_le
  by_cases hw : a < kPriorityBase + (4 * (UInt32.ofNat n + 1)).toUInt64
  · have hlt := UInt64.lt_iff_toNat_lt.1 hw
    rw [hend] at hlt
    have hid : (a / 4).toUInt32.toNat = a.toNat / 4 := by
      rw [UInt64.toNat_toUInt32, UInt64.toNat_div]
      show a.toNat / 4 % 2 ^ 32 = _
      omega
    have hfar {k : UInt64} (hk : 0x1000 ≤ k.toNat) : a ≠ k := by
      rintro rfl
      omega
    rw [decode, if_pos ⟨hbase, hw⟩, hid]
    cases r with
    | priority id =>
      simp only [Option.some.injEq, Reg.priority.injEq, Reg.Selects]
      omega
    | pending => simpa [Reg.Selects] using hfar (by decide)
    | enable => simpa [Reg.Selects] using hfar (by decide)
    | threshold => simpa [Reg.Selects] using hfar (by decide)
    | claim => simpa [Reg.Selects] using hfar (by decide)
  · have hle : 4 * (n + 1) ≤ a.toNat := by
      rw [← hend]
      exact Nat.not_lt.1 fun h => hw (UInt64.lt_iff_toNat_lt.2 h)
    rw [decode, if_neg fun h => hw h.2]
    constructor
    · intro h
      by_cases h1 : a = kPending
      · rw [if_pos h1] at h
        cases h
        exact h1
      rw [if_neg h1] at h
      by_cases h2 : a = kEnable
      · rw [if_pos h2] at h
        cases h
        exact h2
      rw [if_neg h2] at h
      by_cases h3 : a = kThreshold
      · rw [if_pos h3] at h
        cases h
        exact h3
      rw [if_neg h3] at h
      by_cases h4 : a = kClaim
      · rw [if_pos h4] at h
        cases h
        exact h4
      · rw [if_neg h4] at h
        cases h
    · intro hs
      cases r with
      | priority id =>
        obtain ⟨hid, heq⟩ := hs
        omega
      | pending | enable | threshold | claim =>
        rw [show a = _ from hs]
        rfl

theorem bTransport_unmapped (hp : t.dataPtr = some ptr) (hl : t.dataLength = 4) (hd : decode n t.address = none)
    (p : Plic n) : p.bTransport t d = (p, { t with responseStatus := .addressError }, d + 10000) := by
  rw [bTransport_of_access hp hl, access_eq, hd]
  rfl

theorem bTransport_read (hp : t.dataPtr = some ptr) (hl : t.dataLength = 4) (hd : decode n t.address = some r)
    (hc : t.command = .read) (p : Plic n) : p.bTransport t d = (((r.touch p).map updateMeip).getD p,
      { t with dataPtr := some (blit ptr 0 (bytes 4 (r.load p).toNat)), responseStatus := .ok }, d + 10000) := by
  rw [bTransport_of_access hp hl, access_eq, hd]
  simp only [hc, decide_true, if_true, Option.map_some]

/-- A read into a buffer of one word returns the register's word. -/
theorem bTransport_read_word (hb : t.HasBuffer ptr) (hl : t.dataLength = 4) (hd : decode n t.address = some r)
    (hc : t.command = .read) (p : Plic n) : (p.bTransport t d).2.1 =
      { t with dataPtr := some (bytes 4 (r.load p).toNat), responseStatus := .ok } := by
  have hblit : blit ptr 0 (bytes 4 (r.load p).toNat) = bytes 4 (r.load p).toNat :=
    blit_all (by rw [length_bytes, hb.2, hl]; rfl)
  rw [bTransport_read hb.1 hl hd hc, hblit]

theorem bTransport_write (hp : t.dataPtr = some ptr) (hl : t.dataLength = 4) (hd : decode n t.address = some r)
    (hc : t.command ≠ .read) (p : Plic n) : p.bTransport t d =
      (((r.store p (wordOf ptr)).map updateMeip).getD p, { t with responseStatus := .ok }, d + 10000) := by
  rw [bTransport_of_access hp hl, access_eq, hd]
  simp only [hc, decide_false, Bool.false_eq_true, if_false, Option.map_some, ← hp]

/-! ### One operation -/

theorem Reg.touch_cpu (h : r.touch p = some q) : q.cpu = p.cpu := by
  cases r with
  | claim =>
    obtain rfl : p.marked = q := Option.some.inj h
    unfold marked
    split <;> rfl
  | _ => cases h

theorem Reg.store_cpu (h : r.store p v = some q) : q.cpu = p.cpu := by
  cases r with
  | priority id =>
    by_cases hid : id ≥ 1 ∧ id ≤ n
    · rw [Reg.store, if_pos hid] at h
      cases h
      rfl
    · rw [Reg.store, if_neg hid] at h
      cases h
  | pending => cases h
  | enable => cases h; rfl
  | threshold => cases h; rfl
  | claim =>
    obtain rfl : p.completed v = q := Option.some.inj h
    unfold completed
    split <;> rfl

/-- A transaction leaves the registers that it makes `update_meip` look at, or the state alone. -/
theorem bTransport_fst (p : Plic n) (t : Payload) (d : Nat) :
    (p.bTransport t d).1 = ((p.evaluates (.transport t d)).map updateMeip).getD p := by
  cases hp : t.dataPtr with
  | none => simp [evaluates, bTransport, hp]
  | some ptr =>
    by_cases hl : t.dataLength = 4
    swap
    · simp [evaluates, bTransport, hp, hl]
    have he : p.evaluates (.transport t d) = (decode n t.address).bind fun r =>
        if t.command = .read then r.touch p else r.store p (wordOf ptr) := by
      simp [evaluates, hp, hl]
    rw [he]
    cases hr : decode n t.address with
    | none =>
      rw [bTransport_unmapped hp hl hr]
      rfl
    | some r =>
      rw [Option.bind_some]
      by_cases hc : t.command = .read
      · rw [bTransport_read hp hl hr hc, if_pos hc]
      · rw [bTransport_write hp hl hr hc, if_neg hc]

theorem evaluates_transport : p.evaluates (.transport t d) = some q ↔ ∃ (ptr : List UInt8) (r : Reg),
    t.dataPtr = some ptr ∧ t.dataLength = 4 ∧ decode n t.address = some r ∧
      (if t.command = .read then r.touch p else r.store p (wordOf ptr)) = some q := by
  cases hp : t.dataPtr with
  | none => simp [evaluates, hp]
  | some ptr =>
    by_cases hl : t.dataLength = 4
    · simp [evaluates, hp, hl, Option.bind_eq_some_iff]
    · simp [evaluates, hp, hl]

/-- What `update_meip` looks at: a register was read or written, or `on_sources` ran. -/
theorem evaluates_cases (h : p.evaluates op = some q) :
    (∃ r : Reg, r.touch p = some q ∨ ∃ v, r.store p v = some q) ∨ q = { p with onSourcesReady := false } := by
  cases op with
  | transport t d =>
    obtain ⟨ptr, r, -, -, -, hr⟩ := evaluates_transport.1 h
    split at hr
    · exact .inl ⟨r, .inl hr⟩
    · exact .inl ⟨r, .inr ⟨_, hr⟩⟩
  | lines irqIn => cases h
  | onSources =>
    obtain ⟨-, he⟩ := Option.ite_none_right_eq_some.1 h
    exact .inr (Option.some.inj he).symm

theorem evaluates_cpu (h : p.evaluates op = some q) : q.cpu = p.cpu := by
  rcases evaluates_cases h with ⟨r, hr | ⟨v, hr⟩⟩ | rfl
  · exact Reg.touch_cpu hr
  · exact Reg.store_cpu hr
  · rfl

/-- An operation re-evaluates MEIP over the registers it leaves, or neither drives the CPU nor changes a
register. -/
theorem step_cases (h : machine n p op = some (p', o)) :
    (∃ q, p.evaluates op = some q ∧ p' = q.updateMeip ∧ q.cpu = p.cpu) ∨
      (p.evaluates op = none ∧ p'.cpu = p.cpu ∧ SameSetup p p') := by
  rcases machine_cases h with ⟨t, d, rfl, rfl, -⟩ | ⟨irqIn, rfl, rfl, -⟩ | ⟨rfl, hrdy, rfl, -⟩
  · rw [bTransport_fst]
    cases he : p.evaluates (.transport t d) with
    | none => exact .inr ⟨rfl, rfl, .refl p⟩
    | some q => exact .inl ⟨q, rfl, rfl, evaluates_cpu he⟩
  · exact .inr ⟨rfl, rfl, rfl, rfl, rfl⟩
  · exact .inl ⟨{ p with onSourcesReady := false }, if_pos hrdy, rfl, rfl⟩

end

end Plic
end CdcVp
