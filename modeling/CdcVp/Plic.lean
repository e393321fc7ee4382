import CdcVp.CpuBase
import CdcVp.FlatStore
import CdcVp.LittleEndian
import CdcVp.Runs
import CdcVp.Tlm

/-!
# `plic_tlm`

The register file, the gateway and the claim loop. `access` is the address decoder on a 4-byte word,
`bTransport` the marshalling around it, and `machine` the controller as the kernel and the bus drive
it: transactions, new levels of the lines, and `on_sources` once a line has changed. `access_cases` is
the one case split over the register map.
-/

namespace CdcVp
open FlatStore LittleEndian Runs

/-- `plic_tlm` with `n` sources. `onSourcesReady`: a line has changed and the kernel still has to run
`on_sources`. -/
structure Plic (n : Nat) where
  irqIn : Vector Bool n
  cpu : IrqPort
  priority : Vector UInt32 (n + 1)
  claimed : Vector Bool (n + 1)
  enable : UInt32
  threshold : UInt32
  onSourcesReady : Bool

namespace Plic

def kPriorityBase : UInt64 := 0x000000
def kPending : UInt64 := 0x001000
def kEnable : UInt64 := 0x002000
def kThreshold : UInt64 := 0x200000
def kClaim : UInt64 := 0x200004
def kCauseExternal : Nat := 11

variable {n : Nat}

def new (irqIn : Vector Bool n) : Plic n where
  irqIn := irqIn
  cpu := {}
  priority := Vector.replicate (n + 1) 0
  claimed := Vector.replicate (n + 1) false
  enable := 0
  threshold := 0
  onSourcesReady := false

def line (p : Plic n) (id : Nat) : Bool := p.irqIn[id - 1]?.getD false
def priorityOf (p : Plic n) (id : Nat) : UInt32 := p.priority[id]?.getD 0
def isClaimed (p : Plic n) (id : Nat) : Bool := p.claimed[id]?.getD false

/-- The shift amount is taken modulo 32, as the hardware does; it is below 32 for up to 31 sources. -/
def enabled (p : Plic n) (id : Nat) : Bool := (p.enable >>> UInt32.ofNat id) &&& 1 ≠ 0

def eligible (p : Plic n) (id : Nat) : Bool :=
  if id < 1 ∨ id > n then false
  else p.line id && p.enabled id && !p.isClaimed id && p.priorityOf id > p.threshold

def updateMeip (p : Plic n) : Plic n :=
  { p with cpu := p.cpu.setIrq kCauseExternal ((List.range' 1 n).any p.eligible) }

def onSources (p : Plic n) : Plic n := { p with onSourcesReady := false }.updateMeip

/-- One turn of the loop of `do_claim`; the accumulator is `(best, best_prio)`. -/
def claimTurn (p : Plic n) (acc : Nat × UInt32) (id : Nat) : Nat × UInt32 :=
  if p.eligible id && p.priorityOf id > acc.2 then (id, p.priorityOf id) else acc

def best (p : Plic n) : Nat := ((List.range' 1 n).foldl p.claimTurn (0, 0)).1

def doClaim (p : Plic n) : Plic n × Nat :=
  let best := p.best
  let p := if best ≠ 0 then { p with claimed := p.claimed.setIfInBounds best true } else p
  (p.updateMeip, best)

/-- The write half of the claim/complete register. -/
def doComplete (p : Plic n) (value : UInt32) : Plic n :=
  let p := if value.toNat ≥ 1 ∧ value.toNat ≤ n then
      { p with claimed := p.claimed.setIfInBounds value.toNat false }
    else p
  p.updateMeip

def pending (p : Plic n) : UInt32 :=
  (List.range' 1 n).foldl (fun value id => if p.line id then value ||| 1 <<< UInt32.ofNat id else value) 0

/-- The register decoder of `b_transport`; `none` is the address error. -/
def access (p : Plic n) (addr : UInt64) (isRead : Bool) (value : UInt32) : Option (Plic n × UInt32) :=
  if addr ≥ kPriorityBase ∧ addr < kPriorityBase + (4 * (UInt32.ofNat n + 1)).toUInt64 then
    let id := (addr / 4).toUInt32.toNat
    if isRead then some (p, if id ≤ n then p.priorityOf id else 0)
    else if id ≥ 1 ∧ id ≤ n then
      some ({ p with priority := p.priority.setIfInBounds id value }.updateMeip, value)
    else some (p, value)
  else if addr = kPending then
    if isRead then some (p, p.pending) else some (p, value)
  else if addr = kEnable then
    if isRead then some (p, p.enable) else some ({ p with enable := value }.updateMeip, value)
  else if addr = kThreshold then
    if isRead then some (p, p.threshold) else some ({ p with threshold := value }.updateMeip, value)
  else if addr = kClaim then
    if isRead then
      let (p, best) := p.doClaim
      some (p, UInt32.ofNat best)
    else some (p.doComplete value, value)
  else none

def bTransport : BSocket (Plic n) := fun p trans delay =>
  let delay := delay + 10000
  let addr := trans.address
  let len := trans.dataLength
  let isRead := trans.command = .read
  match trans.dataPtr with
  | none => (p, { trans with responseStatus := .addressError }, delay)
  | some ptr =>
    if len ≠ 4 then (p, { trans with responseStatus := .addressError }, delay)
    else
      let value := if isRead then 0 else UInt32.ofNat (value (ptr.take 4))
      match p.access addr isRead value with
      | none => (p, { trans with responseStatus := .addressError }, delay)
      | some (p, value) =>
        let ptr := if isRead then blit ptr 0 (bytes 4 value.toNat) else ptr
        (p, { trans with dataPtr := some ptr, responseStatus := .ok }, delay)

/-! ### The controller in the system -/

/-- What the rest of the system does to the controller: a transaction, new levels on the lines, or the
kernel running `on_sources`. -/
inductive Op (n : Nat)
  | transport (trans : Payload) (delay : Nat)
  | lines (irqIn : Vector Bool n)
  | onSources

/-- What a transaction did at the claim register: a read returned source `id`, or a write completed `id`,
which was claimed or not. -/
inductive Event
  | claim (id : Nat)
  | complete (id : Nat) (wasClaimed : Bool)
deriving DecidableEq, Repr

/-- The event of a transaction, read off the payload before and after. -/
def observed (p : Plic n) (trans out : Payload) : List Event :=
  if out.responseStatus = .ok ∧ trans.address = kClaim then
    if trans.command = .read then
      let id := value ((out.dataPtr.getD []).take 4)
      if id = 0 then [] else [.claim id]
    else
      let id := value ((trans.dataPtr.getD []).take 4)
      [.complete id (p.isClaimed id)]
  else []

def machine (n : Nat) : Machine (Plic n) (Op n) Event := fun p op =>
  match op with
  | .transport t delay =>
    let (p', out, _) := p.bTransport t delay
    some (p', p.observed t out)
  | .lines irqIn => some ({ p with irqIn := irqIn, onSourcesReady := p.onSourcesReady || irqIn ≠ p.irqIn }, [])
  | .onSources => if p.onSourcesReady then some (p.onSources, []) else none

/-- All that an operation can do. -/
theorem machine_cases {p p' : Plic n} {op : Op n} {o : List Event} (h : machine n p op = some (p', o)) :
    (∃ t d, op = .transport t d ∧ p' = (p.bTransport t d).1 ∧ o = p.observed t (p.bTransport t d).2.1) ∨
    (∃ irqIn, op = .lines irqIn ∧
      p' = { p with irqIn := irqIn, onSourcesReady := p.onSourcesReady || irqIn ≠ p.irqIn } ∧ o = []) ∨
    (op = .onSources ∧ p.onSourcesReady = true ∧ p' = p.onSources ∧ o = []) := by
  cases op with
  | transport t d =>
    obtain ⟨rfl, rfl⟩ := Prod.mk.inj (Option.some.inj h)
    exact .inl ⟨t, d, rfl, rfl, rfl⟩
  | lines irqIn =>
    obtain ⟨rfl, rfl⟩ := Prod.mk.inj (Option.some.inj h)
    exact .inr (.inl ⟨irqIn, rfl, rfl, rfl⟩)
  | onSources =>
    obtain ⟨hdue, he⟩ := Option.ite_none_right_eq_some.1 h
    obtain ⟨rfl, rfl⟩ := Prod.mk.inj (Option.some.inj he)
    exact .inr (.inr ⟨rfl, hdue, rfl, rfl⟩)

/-! ### Eligible sources -/

section
variable {p q : Plic n} {id : Nat} {addr : UInt64} {isRead : Bool} {v : UInt32}

theorem eligible_iff : p.eligible id = true ↔ (1 ≤ id ∧ id ≤ n) ∧ p.line id = true ∧ p.enabled id = true ∧
    p.isClaimed id = false ∧ p.threshold < p.priorityOf id := by
  unfold eligible
  split
  · rename_i h
    exact iff_of_false Bool.false_ne_true fun h' => by omega
  · rename_i h
    simp only [Bool.and_eq_true, Bool.not_eq_true', decide_eq_true_eq, and_assoc]
    exact ⟨fun h' => ⟨by omega, by omega, h'⟩, fun h' => h'.2.2⟩

/-- The enable bit of a source, for the ids one word holds. -/
theorem enabled_iff (hid : id < 32) : p.enabled id = true ↔ p.enable.toNat.testBit id = true := by
  have hs : (UInt32.ofNat id).toNat % 32 = id := by
    rw [UInt32.toNat_ofNat']
    omega
  rw [enabled, decide_eq_true_eq, Nat.testBit, bne_iff_ne, ne_eq, ne_eq, ← UInt32.toNat_inj,
    UInt32.toNat_and, UInt32.toNat_shiftRight, hs, Nat.and_comm]
  rfl

def AnyEligible (p : Plic n) : Prop := ∃ id, p.eligible id = true

theorem any_eligible_iff : (List.range' 1 n).any p.eligible = true ↔ p.AnyEligible := by
  rw [List.any_eq_true]
  constructor
  · rintro ⟨id, -, h⟩
    exact ⟨id, h⟩
  · rintro ⟨id, h⟩
    obtain ⟨hid, -⟩ := eligible_iff.1 h
    exact ⟨id, List.mem_range'_1.2 (by omega), h⟩

/-- `update_meip` drives MEIP to say whether some source is eligible. -/
theorem level_updateMeip : p.updateMeip.cpu.level kCauseExternal = true ↔ p.updateMeip.AnyEligible := by
  show (p.cpu.setIrq kCauseExternal _).level kCauseExternal = true ↔ _
  rw [IrqPort.level_setIrq_self]
  exact any_eligible_iff

/-! ### The claim loop -/

/-- What the accumulator of `do_claim` holds after the ids below `k`: the first of the eligible sources
with the highest priority, or nothing. -/
def Best (p : Plic n) (k : Nat) (acc : Nat × UInt32) : Prop :=
  (acc = (0, 0) ∧ ∀ j < k, p.eligible j = false) ∨
  (acc.1 < k ∧ p.eligible acc.1 = true ∧ acc.2 = p.priorityOf acc.1 ∧
    ∀ j < k, p.eligible j = true → p.priorityOf j ≤ acc.2 ∧ (p.priorityOf j = acc.2 → acc.1 ≤ j))

theorem pos_of_eligible (h : p.eligible id = true) : 0 < p.priorityOf id := by
  have := (eligible_iff.1 h).2.2.2.2
  rw [UInt32.lt_iff_toNat_lt] at this ⊢
  exact Nat.zero_lt_of_lt this

theorem best_claimTurn {k : Nat} {acc : Nat × UInt32} (h : p.Best k acc) :
    p.Best (k + 1) (p.claimTurn acc k) := by
  unfold claimTurn
  by_cases hk : p.eligible k = true
  swap
  · have hkf : p.eligible k = false := by simpa using hk
    simp only [hkf, Bool.false_and, Bool.false_eq_true, if_false]
    rcases h with ⟨rfl, hnone⟩ | ⟨hlt, he, hp, hmax⟩
    · refine .inl ⟨rfl, ?_⟩
      intro j hj
      rcases Nat.lt_succ_iff_lt_or_eq.1 hj with hj | rfl
      · exact hnone j hj
      · exact hkf
    · refine .inr ⟨by omega, he, hp, ?_⟩
      intro j hj hej
      rcases Nat.lt_succ_iff_lt_or_eq.1 hj with hj | rfl
      · exact hmax j hj hej
      · exact absurd hej hk
  by_cases hgt : p.priorityOf k > acc.2
  · simp only [hk, hgt, decide_true, Bool.and_self, if_true]
    refine .inr ⟨by omega, hk, rfl, ?_⟩
    intro j hj hej
    rcases Nat.lt_succ_iff_lt_or_eq.1 hj with hj | rfl
    · rcases h with ⟨rfl, hnone⟩ | ⟨-, -, -, hmax⟩
      · rw [hnone j hj] at hej
        cases hej
      · have hlt : p.priorityOf j < p.priorityOf k := UInt32.lt_of_le_of_lt (hmax j hj hej).1 hgt
        exact ⟨UInt32.le_of_lt hlt, fun heq => absurd (heq ▸ hlt) (UInt32.lt_irrefl _)⟩
    · exact ⟨UInt32.le_refl _, fun _ => Nat.le_refl _⟩
  · simp only [hgt, decide_false, Bool.and_false, Bool.false_eq_true, if_false]
    rcases h with ⟨rfl, -⟩ | ⟨hlt, he, hp, hmax⟩
    · exact absurd (pos_of_eligible hk) hgt
    · refine .inr ⟨by omega, he, hp, ?_⟩
      intro j hj hej
      rcases Nat.lt_succ_iff_lt_or_eq.1 hj with hj | rfl
      · exact hmax j hj hej
      · exact ⟨UInt32.not_lt.1 hgt, fun _ => by omega⟩

theorem best_foldl (p : Plic n) : p.Best (n + 1) ((List.range' 1 n).foldl p.claimTurn (0, 0)) := by
  have key (k : Nat) : p.Best (k + 1) ((List.range' 1 k).foldl p.claimTurn (0, 0)) := by
    induction k with
    | zero =>
      refine .inl ⟨rfl, ?_⟩
      intro j hj
      obtain rfl : j = 0 := by omega
      rfl
    | succ k ih =>
      rw [List.range'_1_concat, List.foldl_append, Nat.add_comm 1 k]
      exact best_claimTurn ih
  exact key n

/-- `do_claim` returns an eligible source if there is one, and 0 if there is none. -/
theorem best_cases (p : Plic n) :
    (p.best = 0 ∧ ¬ p.AnyEligible) ∨ (p.best ≠ 0 ∧ p.best ≤ n ∧ p.eligible p.best = true) := by
  rcases best_foldl p with ⟨he, hnone⟩ | ⟨hlt, he, -, -⟩
  · refine .inl ⟨congrArg Prod.fst he, ?_⟩
    rintro ⟨id, hid⟩
    have := (eligible_iff.1 hid).1
    rw [hnone id (by omega)] at hid
    cases hid
  · have := (eligible_iff.1 he).1
    exact .inr ⟨by rw [best]; omega, by rw [best]; omega, he⟩

/-! ### The register map -/

theorem priorityEnd_toNat (hn : n ≤ 31) :
    (kPriorityBase + (4 * (UInt32.ofNat n + 1)).toUInt64).toNat = 4 * (n + 1) := by
  rw [kPriorityBase, UInt64.zero_add, UInt32.toNat_toUInt64, UInt32.toNat_mul, UInt32.toNat_add,
    UInt32.toNat_ofNat']
  show 4 * ((n % 2 ^ 32 + 1) % 2 ^ 32) % 2 ^ 32 = _
  omega

/-- All an access can do: fail or leave the state alone, write a register and re-evaluate MEIP, claim, or
complete. -/
theorem access_cases (hn : n ≤ 31) (p : Plic n) (addr : UInt64) (isRead : Bool) (v : UInt32) :
    (addr ≠ kClaim ∧ (p.access addr isRead v = none ∨ ∃ v', p.access addr isRead v = some (p, v'))) ∨
    (addr ≠ kClaim ∧ isRead = false ∧ ∃ (q : Plic n) (v' : UInt32), p.access addr isRead v = some (q.updateMeip, v') ∧
      q.claimed = p.claimed ∧ q.onSourcesReady = p.onSourcesReady) ∨
    (addr = kClaim ∧ isRead = true ∧
      p.access addr isRead v = some (p.doClaim.1, UInt32.ofNat p.best)) ∨
    (addr = kClaim ∧ isRead = false ∧ p.access addr isRead v = some (p.doComplete v, v)) := by
  unfold access
  by_cases h0 : addr ≥ kPriorityBase ∧ addr < kPriorityBase + (4 * (UInt32.ofNat n + 1)).toUInt64
  · have hne : addr ≠ kClaim := by
      rintro rfl
      have hlt := UInt64.lt_iff_toNat_lt.1 h0.2
      rw [priorityEnd_toNat hn] at hlt
      have : kClaim.toNat = 0x200004 := rfl
      omega
    rw [if_pos h0]
    cases isRead with
    | true => exact .inl ⟨hne, .inr ⟨_, rfl⟩⟩
    | false =>
      rw [if_neg Bool.false_ne_true]
      split
      · exact .inr (.inl ⟨hne, rfl, _, _, rfl, rfl, rfl⟩)
      · exact .inl ⟨hne, .inr ⟨_, rfl⟩⟩
  rw [if_neg h0]
  by_cases h1 : addr = kPending
  · rw [if_pos h1]
    have hne : addr ≠ kClaim := by rw [h1]; decide
    cases isRead <;> exact .inl ⟨hne, .inr ⟨_, rfl⟩⟩
  rw [if_neg h1]
  by_cases h2 : addr = kEnable
  · rw [if_pos h2]
    have hne : addr ≠ kClaim := by rw [h2]; decide
    cases isRead with
    | true => exact .inl ⟨hne, .inr ⟨_, rfl⟩⟩
    | false => exact .inr (.inl ⟨hne, rfl, _, _, rfl, rfl, rfl⟩)
  rw [if_neg h2]
  by_cases h3 : addr = kThreshold
  · rw [if_pos h3]
    have hne : addr ≠ kClaim := by rw [h3]; decide
    cases isRead with
    | true => exact .inl ⟨hne, .inr ⟨_, rfl⟩⟩
    | false => exact .inr (.inl ⟨hne, rfl, _, _, rfl, rfl, rfl⟩)
  rw [if_neg h3]
  by_cases h4 : addr = kClaim
  · rw [if_pos h4]
    cases isRead with
    | true => exact .inr (.inr (.inl ⟨h4, rfl, rfl⟩))
    | false => exact .inr (.inr (.inr ⟨h4, rfl, rfl⟩))
  · rw [if_neg h4]
    exact .inl ⟨h4, .inl rfl⟩

theorem best_lt (hn : n ≤ 31) (p : Plic n) : p.best < 256 ^ 4 := by
  rcases p.best_cases with ⟨h0, -⟩ | ⟨-, hle, -⟩ <;> omega

theorem toNat_ofNat_best (hn : n ≤ 31) (p : Plic n) : (UInt32.ofNat p.best).toNat = p.best := by
  rw [UInt32.toNat_ofNat']
  exact Nat.mod_eq_of_lt (best_lt hn p)

/-! ### One transaction -/

variable {t : Payload} {ptr : List UInt8}

def wordOf (ptr : List UInt8) : UInt32 := UInt32.ofNat (value (ptr.take 4))

theorem toNat_wordOf (ptr : List UInt8) : (wordOf ptr).toNat = value (ptr.take 4) := by
  have h := value_lt (ptr.take 4)
  have hl : (ptr.take 4).length ≤ 4 := List.length_take_le 4 ptr
  have : 256 ^ (ptr.take 4).length ≤ 256 ^ 4 := Nat.pow_le_pow_right (by omega) hl
  rw [wordOf, UInt32.toNat_ofNat', Nat.mod_eq_of_lt (by omega)]

theorem bTransport_of_access (hp : t.dataPtr = some ptr) (hl : t.dataLength = 4) (d : Nat) :
    p.bTransport t d =
      match p.access t.address (t.command = .read) (if t.command = .read then 0 else wordOf ptr) with
      | none => (p, { t with responseStatus := .addressError }, d + 10000)
      | some (p, v) => (p, { t with
          dataPtr := some (if t.command = .read then blit ptr 0 (bytes 4 v.toNat) else ptr)
          responseStatus := .ok }, d + 10000) := by
  simp only [bTransport, hp, hl, ne_eq, not_true_eq_false, if_false, wordOf]

theorem value_blit (ptr : List UInt8) (v : UInt32) :
    value ((blit ptr 0 (bytes 4 v.toNat)).take 4) = v.toNat := by
  rw [blit, List.take_zero, List.nil_append, List.take_left' (length_bytes 4 _)]
  exact value_bytes_of_lt v.toNat_lt

/-- A read of the claim register returns the best source and claims it. -/
theorem bTransport_claim (hn : n ≤ 31) (hb : t.HasBuffer ptr) (hl : t.dataLength = 4) (hc : t.command = .read)
    (ha : t.address = kClaim) (p : Plic n) (d : Nat) : p.bTransport t d = (p.doClaim.1,
      { t with dataPtr := some (bytes 4 p.best), responseStatus := .ok }, d + 10000) := by
  have hacc : p.access kClaim true 0 = some (p.doClaim.1, UInt32.ofNat p.best) := by
    rcases access_cases hn p kClaim true 0 with ⟨hne, -⟩ | ⟨hne, -⟩ | ⟨-, -, he⟩ | ⟨-, hr, -⟩
    · exact absurd rfl hne
    · exact absurd rfl hne
    · exact he
    · cases hr
  have hblit : blit ptr 0 (bytes 4 p.best) = bytes 4 p.best :=
    blit_all (by rw [length_bytes, hb.2, hl]; rfl)
  rw [bTransport_of_access hb.1 hl, hc, ha]
  simp only [decide_true, if_true, hacc, toNat_ofNat_best hn, hblit]

/-- All a transaction can do to the controller, and what it shows at the claim register. -/
theorem bTransport_cases (hn : n ≤ 31) (p : Plic n) (t : Payload) (d : Nat) :
    ((p.bTransport t d).1 = p ∧ p.observed t (p.bTransport t d).2.1 = []) ∨
    (t.command ≠ .read ∧ t.address ≠ kClaim ∧ ∃ q : Plic n, (p.bTransport t d).1 = q.updateMeip ∧
      q.claimed = p.claimed ∧ q.onSourcesReady = p.onSourcesReady ∧
      p.observed t (p.bTransport t d).2.1 = []) ∨
    (t.command = .read ∧ (p.bTransport t d).1 = p.doClaim.1 ∧
      p.observed t (p.bTransport t d).2.1 = if p.best = 0 then [] else [.claim p.best]) ∨
    (t.command ≠ .read ∧ t.address = kClaim ∧ ∃ ptr, t.dataPtr = some ptr ∧
      (p.bTransport t d).1 = p.doComplete (wordOf ptr) ∧
      p.observed t (p.bTransport t d).2.1 =
        [.complete (wordOf ptr).toNat (p.isClaimed (wordOf ptr).toNat)]) := by
  cases hp : t.dataPtr with
  | none => exact .inl (by simp [bTransport, hp, observed])
  | some ptr =>
    by_cases hl : t.dataLength = 4
    swap
    · exact .inl (by simp [bTransport, hp, hl, observed])
    have hb := p.bTransport_of_access hp hl d
    rcases access_cases hn p t.address (t.command = .read)
        (if t.command = .read then 0 else wordOf ptr) with
      ⟨hne, he | ⟨v, he⟩⟩ | ⟨hne, hc, q, v, he, hcl, hrdy⟩ | ⟨ha, hc, he⟩ | ⟨ha, hc, he⟩
    · rw [hb, he]
      exact .inl ⟨rfl, by simp [observed]⟩
    · rw [hb, he]
      exact .inl ⟨rfl, by simp [observed, hne]⟩
    · rw [hb, he]
      exact .inr (.inl ⟨by simpa using hc, hne, q, rfl, hcl, hrdy, by simp [observed, hne]⟩)
    · have hc' : t.command = .read := by simpa using hc
      have hbest : value ((blit ptr 0 (bytes 4 (UInt32.ofNat p.best).toNat)).take 4) = p.best := by
        rw [value_blit, toNat_ofNat_best hn]
      rw [hb, he]
      refine .inr (.inr (.inl ⟨hc', rfl, ?_⟩))
      simp only [observed, ha, hc', and_self, if_true, Option.getD_some, hbest]
    · have hc' : t.command ≠ .read := by simpa using hc
      rw [hb, he]
      refine .inr (.inr (.inr ⟨hc', ha, ptr, rfl, by rw [if_neg hc'], ?_⟩))
      simp only [observed, ha, hc', and_self, if_true, if_false, hp, Option.getD_some, toNat_wordOf]

end

end Plic
end CdcVp
