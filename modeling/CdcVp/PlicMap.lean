import CdcVp.PlicRegs

/-!
# The PLIC's register map

`MeetsMap` is what the register map promises of one access: which addresses answer, that the others change
nothing, and that a write changes the register at its own address and no other. The decoder takes any of the
four bytes of a priority word for the word, so a misaligned access there is answered as well; and over a run
without one, each register reads back what was last written at its address (`load_run`).
-/

namespace CdcVp
open FlatStore LittleEndian Runs

namespace Plic
variable {n : Nat}

/-- A 4-byte access with a buffer. -/
def IsWord (t : Payload) : Prop := t.dataPtr.isSome = true ∧ t.dataLength = 4

/-- The addresses of the register map. -/
def Mapped (n : Nat) (a : UInt64) : Prop :=
  (∃ id ≤ n, a.toNat = 4 * id) ∨ a = kPending ∨ a = kEnable ∨ a = kThreshold ∨ a = kClaim

/-- The registers but the one at `a` are the same. -/
structure OnlyAt (a : UInt64) (p q : Plic n) : Prop where
  priority (id : Nat) : a.toNat ≠ 4 * id → q.priorityOf id = p.priorityOf id
  enable : a ≠ kEnable → q.enable = p.enable
  threshold : a ≠ kThreshold → q.threshold = p.threshold
  claimed : a ≠ kClaim → q.claimed = p.claimed

structure MeetsMap (p : Plic n) (t : Payload) (d : Nat) : Prop where
  answered : IsWord t → ((p.bTransport t d).2.1.responseStatus = .ok ↔ Mapped n t.address)
  refused : ¬ (IsWord t ∧ Mapped n t.address) →
    (p.bTransport t d).2.1.responseStatus ≠ .ok ∧ (p.bTransport t d).1 = p
  confined : t.command ≠ .read → OnlyAt t.address p (p.bTransport t d).1

/-- An access to a priority word at another address than the word's own. -/
def Misaligned (n : Nat) (t : Payload) : Prop :=
  IsWord t ∧ t.address.toNat < 4 * (n + 1) ∧ t.address.toNat % 4 ≠ 0

section
variable {p p' q : Plic n} {t : Payload} {d : Nat} {ptr : List UInt8} {r : Reg} {a : UInt64} {v : UInt32}
  {op : Op n} {o : List Event}

theorem OnlyAt.refl (a : UInt64) (p : Plic n) : OnlyAt a p p :=
  ⟨fun _ _ => rfl, fun _ => rfl, fun _ => rfl, fun _ => rfl⟩

theorem OnlyAt.updateMeip (h : OnlyAt a p q) : OnlyAt a p q.updateMeip :=
  ⟨h.priority, h.enable, h.threshold, h.claimed⟩

theorem isWord_iff : IsWord t ↔ ∃ ptr, t.dataPtr = some ptr ∧ t.dataLength = 4 := by
  rw [IsWord, Option.isSome_iff_exists, exists_and_right]

/-- The decoder takes the addresses of the map and the other bytes of the priority words. -/
theorem decode_isSome_iff (hn : n ≤ 31) (a : UInt64) :
    (decode n a).isSome = true ↔ Mapped n a ∨ (a.toNat < 4 * (n + 1) ∧ a.toNat % 4 ≠ 0) := by
  rw [Option.isSome_iff_exists]
  simp only [decode_iff hn, Mapped]
  constructor
  · rintro ⟨r, hr⟩
    cases r with
    | priority id =>
      obtain ⟨hle, hid⟩ := hr
      by_cases hal : a.toNat % 4 = 0
      · exact .inl (.inl ⟨id, hle, by omega⟩)
      · exact .inr ⟨by omega, hal⟩
    | pending => exact .inl (.inr (.inl hr))
    | enable => exact .inl (.inr (.inr (.inl hr)))
    | threshold => exact .inl (.inr (.inr (.inr (.inl hr))))
    | claim => exact .inl (.inr (.inr (.inr (.inr hr))))
  · rintro ((⟨id, hle, hid⟩ | h | h | h | h) | ⟨hlt, -⟩)
    · exact ⟨.priority id, hle, by omega⟩
    · exact ⟨.pending, h⟩
    · exact ⟨.enable, h⟩
    · exact ⟨.threshold, h⟩
    · exact ⟨.claim, h⟩
    · exact ⟨.priority (a.toNat / 4), by omega, rfl⟩

theorem ok_iff_decode (hw : IsWord t) (p : Plic n) (d : Nat) :
    (p.bTransport t d).2.1.responseStatus = .ok ↔ (decode n t.address).isSome = true := by
  obtain ⟨ptr, hp, hl⟩ := isWord_iff.1 hw
  cases hr : decode n t.address with
  | none =>
    rw [bTransport_unmapped hp hl hr]
    simp
  | some r =>
    by_cases hc : t.command = .read
    · rw [bTransport_read hp hl hr hc]
      simp
    · rw [bTransport_write hp hl hr hc]
      simp

theorem bTransport_not_isWord (hw : ¬ IsWord t) (p : Plic n) (d : Nat) :
    p.bTransport t d = (p, { t with responseStatus := .addressError }, d + 10000) := by
  cases hp : t.dataPtr with
  | none => simp [bTransport, hp]
  | some ptr =>
    have hl : t.dataLength ≠ 4 := fun hl => hw (isWord_iff.2 ⟨ptr, hp, hl⟩)
    simp [bTransport, hp, hl]

theorem priorityOf_set {id j : Nat} (h : j ≠ id) (p : Plic n) (v : UInt32) :
    (p.priority.setIfInBounds id v)[j]?.getD 0 = p.priorityOf j := by
  rw [Vector.getElem?_setIfInBounds_ne h.symm]
  rfl

/-- A write changes the register it selects. -/
theorem onlyAt_store (hs : r.Selects n a) (hal : a.toNat < 4 * (n + 1) → a.toNat % 4 = 0)
    (h : r.store p v = some q) : OnlyAt a p q := by
  cases r with
  | priority id =>
    obtain ⟨hle, hid⟩ := hs
    have hid' : id ≥ 1 ∧ id ≤ n := by
      by_contra hno
      rw [Reg.store, if_neg hno] at h
      cases h
    rw [Reg.store, if_pos hid'] at h
    cases h
    have := hal (by omega)
    refine ⟨fun j hj => priorityOf_set (by omega) p v, fun _ => rfl, fun _ => rfl, fun _ => rfl⟩
  | pending => cases h
  | enable =>
    cases h
    exact ⟨fun _ _ => rfl, fun hne => absurd hs hne, fun _ => rfl, fun _ => rfl⟩
  | threshold =>
    cases h
    exact ⟨fun _ _ => rfl, fun _ => rfl, fun hne => absurd hs hne, fun _ => rfl⟩
  | claim =>
    obtain rfl : p.completed v = q := Option.some.inj h
    have hsame := p.setup_completed v
    exact ⟨fun id _ => congrArg (fun w => (w[id]?).getD 0) hsame.priority, fun _ => hsame.enable,
      fun _ => hsame.threshold, fun hne => absurd hs hne⟩

theorem meetsMap_iff (hn : n ≤ 31) (p : Plic n) (t : Payload) (d : Nat) :
    MeetsMap p t d ↔ ¬ Misaligned n t := by
  have hno (hlt : t.address.toNat < 4 * (n + 1)) (hal : t.address.toNat % 4 ≠ 0) : ¬ Mapped n t.address := by
    rintro (⟨id, -, hid⟩ | h | h | h | h)
    · omega
    all_goals
      rw [h] at hlt
      have : 0x1000 ≤ 4 * (n + 1) := Nat.le_of_lt (Nat.lt_of_le_of_lt (by decide) hlt)
      omega
  constructor
  · rintro h ⟨hw, hlt, hal⟩
    exact hno hlt hal ((h.answered hw).1 ((ok_iff_decode hw p d).2 ((decode_isSome_iff hn _).2 (.inr ⟨hlt, hal⟩))))
  · intro h
    have hal (hw : IsWord t) (hlt : t.address.toNat < 4 * (n + 1)) : t.address.toNat % 4 = 0 := by
      by_contra hne
      exact h ⟨hw, hlt, hne⟩
    have hans (hw : IsWord t) : (p.bTransport t d).2.1.responseStatus = .ok ↔ Mapped n t.address := by
      rw [ok_iff_decode hw, decode_isSome_iff hn]
      exact or_iff_left fun hm => hm.2 (hal hw hm.1)
    refine ⟨hans, ?_, ?_⟩
    · intro hm
      by_cases hw : IsWord t
      · refine ⟨fun hok => hm ⟨hw, (hans hw).1 hok⟩, ?_⟩
        obtain ⟨ptr, hp, hl⟩ := isWord_iff.1 hw
        have hd : decode n t.address = none := by
          rw [← Option.not_isSome_iff_eq_none, decode_isSome_iff hn]
          rintro (hmap | ⟨hlt, hne⟩)
          · exact hm ⟨hw, hmap⟩
          · exact hne (hal hw hlt)
        rw [bTransport_unmapped hp hl hd]
      · rw [bTransport_not_isWord hw]
        exact ⟨by simp, rfl⟩
    · intro hc
      by_cases hw : IsWord t
      swap
      · rw [bTransport_not_isWord hw]
        exact .refl _ _
      obtain ⟨ptr, hp, hl⟩ := isWord_iff.1 hw
      cases hd : decode n t.address with
      | none =>
        rw [bTransport_unmapped hp hl hd]
        exact .refl _ _
      | some r =>
        rw [bTransport_write hp hl hd hc]
        cases hs : r.store p (wordOf ptr) with
        | none => exact .refl _ _
        | some q => exact (onlyAt_store ((decode_iff hn).1 hd) (hal hw) hs).updateMeip

end

/-! ### What is read back -/

namespace Reg

/-- The address of a register in the map. -/
def own : Reg → UInt64
  | .priority id => UInt64.ofNat (4 * id)
  | .pending => kPending
  | .enable => kEnable
  | .threshold => kThreshold
  | .claim => kClaim

/-- The registers that hold what is written to them. -/
def Holds (n : Nat) : Reg → Prop
  | .priority id => 1 ≤ id ∧ id ≤ n
  | .enable => True
  | .threshold => True
  | .pending => False
  | .claim => False

end Reg

/-- The word an operation writes at `a`. -/
def writtenAt (a : UInt64) : Op n → Option UInt32
  | .transport t _ =>
    match t.dataPtr with
    | none => none
    | some ptr => if t.command ≠ .read ∧ t.dataLength = 4 ∧ t.address = a then some (wordOf ptr) else none
  | _ => none

def lastWritten (a : UInt64) (is : List (Op n)) : Option UInt32 := is.reverse.findSome? (writtenAt a)

def Op.Misaligned : Op n → Prop
  | .transport t _ => Plic.Misaligned n t
  | _ => False

/-- A 4-byte read at `a` is answered with `v`. -/
def ReadsAs (p : Plic n) (a : UInt64) (v : UInt32) : Prop :=
  ∀ (t : Payload) (buf : List UInt8) (d : Nat), t.command = .read → t.HasBuffer buf → t.dataLength = 4 →
    t.address = a → (p.bTransport t d).2.1.responseStatus = .ok ∧
      (p.bTransport t d).2.1.dataPtr = some (bytes 4 v.toNat)

section
variable {p p' q : Plic n} {t : Payload} {d : Nat} {r r' : Reg} {a : UInt64} {v : UInt32} {op : Op n}
  {o os : List Event} {is : List (Op n)}

theorem lastWritten_snoc (a : UInt64) (is : List (Op n)) (op : Op n) :
    lastWritten a (is ++ [op]) = (writtenAt a op).or (lastWritten a is) := by
  rw [lastWritten, List.reverse_append, List.reverse_singleton, List.singleton_append, List.findSome?_cons]
  cases writtenAt a op <;> rfl

theorem selects_own (hn : n ≤ 31) (h : r.Holds n) : r.Selects n r.own := by
  cases r with
  | priority id =>
    refine ⟨h.2, ?_⟩
    rw [Reg.own, UInt64.toNat_ofNat', Nat.mod_eq_of_lt (by have := h.2; omega)]
    omega
  | enable | threshold => rfl
  | pending | claim => exact False.elim h

/-- An aligned address selects one register, at the register's own address. -/
theorem eq_own_iff (hn : n ≤ 31) (hs : r.Selects n a) (hal : a.toNat < 4 * (n + 1) → a.toNat % 4 = 0)
    (hr : r'.Holds n) : a = r'.own ↔ r = r' := by
  constructor
  · rintro rfl
    have h := (decode_iff hn).2 (selects_own hn hr)
    exact Option.some.inj (((decode_iff hn).2 hs).symm.trans h)
  · rintro rfl
    cases r with
    | priority id =>
      obtain ⟨hle, hid⟩ := hs
      have := hal (by omega)
      rw [Reg.own, ← UInt64.toNat_inj, UInt64.toNat_ofNat', Nat.mod_eq_of_lt (by omega)]
      omega
    | enable | threshold => exact hs
    | pending | claim => exact False.elim hr

theorem load_updateMeip (hr : r.Holds n) (q : Plic n) : r.load q.updateMeip = r.load q := by
  cases r with
  | priority | enable | threshold => rfl
  | pending | claim => exact False.elim hr

theorem load_of_setup (hr : r.Holds n) (h : SameSetup p q) : r.load q = r.load p := by
  cases r with
  | priority id => simp only [Reg.load, priorityOf, h.priority]
  | enable => exact h.enable
  | threshold => exact h.threshold
  | pending | claim => exact False.elim hr

theorem load_touch (hr : r'.Holds n) (h : r.touch p = some q) : r'.load q = r'.load p := by
  cases r with
  | claim =>
    obtain rfl : p.marked = q := Option.some.inj h
    exact load_of_setup hr p.setup_marked
  | _ => cases h

/-- A register that holds its writes holds the last one. -/
theorem load_store_self (hr : r.Holds n) (p : Plic n) (v : UInt32) :
    ∃ q, r.store p v = some q ∧ r.load q = v := by
  cases r with
  | priority id =>
    refine ⟨_, if_pos hr, ?_⟩
    simp only [Reg.load, priorityOf, if_pos hr.2, Vector.getElem?_setIfInBounds_self_of_lt (Nat.lt_succ_of_le hr.2),
      Option.getD_some]
  | enable | threshold => exact ⟨_, rfl, rfl⟩
  | pending | claim => exact False.elim hr

theorem load_store_of_ne (hr : r'.Holds n) (hne : r ≠ r') (h : r.store p v = some q) : r'.load q = r'.load p := by
  cases r with
  | priority id =>
    by_cases hid : id ≥ 1 ∧ id ≤ n
    · rw [Reg.store, if_pos hid] at h
      cases h
      cases r' with
      | priority j =>
        have hj : j ≠ id := fun hj => hne (by rw [hj])
        simp only [Reg.load, priorityOf, Vector.getElem?_setIfInBounds_ne hj.symm]
      | enable | threshold => rfl
      | pending | claim => exact False.elim hr
    · rw [Reg.store, if_neg hid] at h
      cases h
  | pending => cases h
  | enable =>
    cases h
    cases r' with
    | enable => exact absurd rfl hne
    | priority | threshold => rfl
    | pending | claim => exact False.elim hr
  | threshold =>
    cases h
    cases r' with
    | threshold => exact absurd rfl hne
    | priority | enable => rfl
    | pending | claim => exact False.elim hr
  | claim =>
    obtain rfl : p.completed v = q := Option.some.inj h
    exact load_of_setup hr (p.setup_completed v)

theorem load_transport (hn : n ≤ 31) (hal : ¬ Misaligned n t) (hr : r.Holds n) (p : Plic n) (d : Nat) :
    r.load (p.bTransport t d).1 = (writtenAt r.own (.transport t d : Op n)).getD (r.load p) := by
  by_cases hw : IsWord t
  swap
  · have hnone : writtenAt r.own (.transport t d : Op n) = none := by
      cases hp : t.dataPtr with
      | none => simp [writtenAt, hp]
      | some ptr =>
        have hl : t.dataLength ≠ 4 := fun hl => hw (isWord_iff.2 ⟨ptr, hp, hl⟩)
        simp [writtenAt, hp, hl]
    rw [bTransport_not_isWord hw, hnone]
    rfl
  obtain ⟨ptr, hp, hl⟩ := isWord_iff.1 hw
  have hal' (hlt : t.address.toNat < 4 * (n + 1)) : t.address.toNat % 4 = 0 := by
    by_contra hne
    exact hal ⟨hw, hlt, hne⟩
  have hwr : writtenAt r.own (.transport t d : Op n) =
      if t.command ≠ .read ∧ t.address = r.own then some (wordOf ptr) else none := by
    simp only [writtenAt, hp, hl, true_and]
  rw [hwr]
  cases hd : decode n t.address with
  | none =>
    have hne : ¬ (t.command ≠ .read ∧ t.address = r.own) := by
      rintro ⟨-, ha⟩
      rw [ha, (decode_iff hn).2 (selects_own hn hr)] at hd
      cases hd
    rw [bTransport_unmapped hp hl hd, if_neg hne]
    rfl
  | some r₀ =>
    have hs := (decode_iff hn).1 hd
    by_cases hc : t.command = .read
    · rw [bTransport_read hp hl hd hc, if_neg fun h => h.1 hc]
      cases ht : r₀.touch p with
      | none => rfl
      | some q => exact (load_updateMeip hr q).trans (load_touch hr ht)
    · rw [bTransport_write hp hl hd hc]
      by_cases ha : t.address = r.own
      · obtain rfl := (eq_own_iff hn hs hal' hr).1 ha
        obtain ⟨q, hq, hv⟩ := load_store_self hr p (wordOf ptr)
        rw [if_pos ⟨hc, ha⟩, hq]
        exact (load_updateMeip hr q).trans hv
      · have hne : r₀ ≠ r := fun h => ha ((eq_own_iff hn hs hal' hr).2 h)
        rw [if_neg fun h => ha h.2]
        cases hq : r₀.store p (wordOf ptr) with
        | none => rfl
        | some q => exact (load_updateMeip hr q).trans (load_store_of_ne hr hne hq)

/-- A register that holds its writes takes the word written at its own address and keeps what it has over every
other operation. -/
theorem load_step (hn : n ≤ 31) (hal : ¬ op.Misaligned) (hr : r.Holds n) (h : machine n p op = some (p', o)) :
    r.load p' = (writtenAt r.own op).getD (r.load p) := by
  rcases machine_cases h with ⟨t, d, rfl, rfl, -⟩ | ⟨irqIn, rfl, rfl, -⟩ | ⟨rfl, -, rfl, -⟩
  · exact load_transport hn hal hr p d
  · exact load_of_setup hr ⟨rfl, rfl, rfl⟩
  · exact load_of_setup hr ⟨rfl, rfl, rfl⟩

theorem load_run (hn : n ≤ 31) {irqIn : Vector Bool n} (hrun : Run (machine n) (new irqIn) is os p)
    (hal : ∀ op ∈ is, ¬ op.Misaligned) (hr : r.Holds n) : r.load p = (lastWritten r.own is).getD 0 := by
  induction hrun with
  | nil =>
    cases r with
    | priority id => simp [Reg.load, priorityOf, new, lastWritten, hr.2, Nat.lt_succ_of_le hr.2]
    | enable | threshold => rfl
    | pending | claim => exact False.elim hr
  | snoc _ hi ih =>
    rw [load_step hn (hal _ (by simp)) hr hi, ih fun op hop => hal op (List.mem_append_left _ hop),
      lastWritten_snoc]
    cases writtenAt r.own _ <;> rfl

theorem priorityOf_zero_of_evaluates (h : p.evaluates op = some q) : q.priorityOf 0 = p.priorityOf 0 := by
  have hsetup (hq : SameSetup p q) : q.priorityOf 0 = p.priorityOf 0 := by
    rw [priorityOf, priorityOf, hq.priority]
  rcases evaluates_cases h with ⟨r, hr | ⟨v, hr⟩⟩ | rfl
  · cases r with
    | claim =>
      obtain rfl : p.marked = q := Option.some.inj hr
      exact hsetup p.setup_marked
    | _ => cases hr
  · cases r with
    | priority id =>
      simp only [Reg.store] at hr
      split at hr
      · rename_i hid
        cases hr
        exact priorityOf_set (by omega) p _
      · cases hr
    | pending => cases hr
    | enable | threshold =>
      cases hr
      rfl
    | claim =>
      obtain rfl : p.completed _ = q := Option.some.inj hr
      exact hsetup (p.setup_completed _)
  · rfl

/-- The slot of id 0 is no source's: it reads as 0 whatever is written there. -/
theorem priorityOf_zero {irqIn : Vector Bool n} (hrun : Run (machine n) (new irqIn) is os p) :
    p.priorityOf 0 = 0 := by
  refine hrun.inv (fun p => p.priorityOf 0 = 0) (by simp [priorityOf, new]) ?_
  intro a i b o h ha
  rcases step_cases h with ⟨q, hq, rfl, -⟩ | ⟨-, -, hs⟩
  · exact (priorityOf_zero_of_evaluates hq).trans ha
  · rw [priorityOf, hs.priority]
    exact ha

end

end Plic
open Plic

/-- The register map. An access in a reachable state does what the map promises iff it is no misaligned access
to a priority word; and in a run without such an access each source's priority, the enable word and the
threshold read as the word last written at their address (0 at first). The slot of id 0 always reads as 0. -/
theorem plic_map_iff (n : Nat) (hn : n ≤ 31) (irqIn : Vector Bool n) (is : List (Op n)) (os : List Event)
    (p : Plic n) (hrun : Run (machine n) (Plic.new irqIn) is os p) :
    (∀ t d, MeetsMap p t d ↔ ¬ (IsWord t ∧ t.address.toNat < 4 * (n + 1) ∧ t.address.toNat % 4 ≠ 0)) ∧
    ((∀ op ∈ is, ¬ op.Misaligned) → ∀ a, (∃ id, 1 ≤ id ∧ id ≤ n ∧ a = UInt64.ofNat (4 * id)) ∨ a = kEnable ∨
      a = kThreshold → ReadsAs p a ((lastWritten a is).getD 0)) ∧
    ReadsAs p 0 0 := by
  have hreads {r : Reg} {a : UInt64} (hs : r.Selects n a) (hr : r.touch p = none) : ReadsAs p a (r.load p) := by
    intro t buf d hc hb hl ha
    rw [bTransport_read_word hb hl ((decode_iff hn).2 (ha ▸ hs)) hc]
    exact ⟨rfl, rfl⟩
  refine ⟨fun t d => meetsMap_iff hn p t d, ?_, ?_⟩
  · intro hal a ha
    obtain ⟨r, hr, rfl, ht⟩ : ∃ r : Reg, r.Holds n ∧ a = r.own ∧ r.touch p = none := by
      rcases ha with ⟨id, h1, h2, rfl⟩ | rfl | rfl
      · exact ⟨.priority id, ⟨h1, h2⟩, rfl, rfl⟩
      · exact ⟨.enable, trivial, rfl, rfl⟩
      · exact ⟨.threshold, trivial, rfl, rfl⟩
    rw [← load_run hn hrun hal hr]
    exact hreads (selects_own hn hr) ht
  · have h0 : Reg.load p (.priority 0) = 0 := by
      rw [Reg.load, if_pos (Nat.zero_le n), priorityOf_zero hrun]
    rw [← h0]
    exact hreads ⟨Nat.zero_le n, rfl⟩ rfl

/-- The priority of source 1 set, through the word's own address and then through the byte after it. -/
def misaligned : List (Op 1) :=
  [.transport ⟨.write, 4, some [3, 0, 0, 0], 4, .incomplete, false⟩ 0,
    .transport ⟨.write, 5, some [7, 0, 0, 0], 4, .incomplete, false⟩ 0]

theorem run_misaligned (k : Nat) (hk : k ≤ 2) :
    ∃ p os, Run (machine 1) (Plic.new (Vector.replicate 1 false)) (misaligned.take k) os p := by
  have hx : ∀ k ≤ 2, (exec (machine 1) (Plic.new (Vector.replicate 1 false)) (misaligned.take k)).isSome := by
    decide +kernel
  obtain ⟨⟨p, os⟩, he⟩ := Option.isSome_iff_exists.1 (hx k hk)
  exact ⟨p, os, Run.of_exec he⟩

theorem plic_map_iff_aligned : ∃ p os,
    Run (machine 1) (Plic.new (Vector.replicate 1 false)) (misaligned.take 1) os p ∧ ReadsAs p 4 3 := by
  obtain ⟨p, os, hrun⟩ := run_misaligned 1 (by decide)
  refine ⟨p, os, hrun, (plic_map_iff 1 (by decide) _ _ os p hrun).2.1 ?_ 4 (.inl ⟨1, by decide, by decide, rfl⟩)⟩
  intro op hop
  obtain rfl : op = .transport ⟨.write, 4, some [3, 0, 0, 0], 4, .incomplete, false⟩ 0 := List.mem_singleton.1 hop
  exact fun h => h.2.2 rfl

/-- The write to address 5 is answered although the map has no such address. -/
theorem not_meetsMap_misaligned : ¬ ∀ (n : Nat) (irqIn : Vector Bool n) (is : List (Op n)) (os : List Event)
    (p : Plic n) (t : Payload) (d : Nat), n ≤ 31 → Run (machine n) (Plic.new irqIn) is os p → MeetsMap p t d := by
  intro h
  obtain ⟨p, os, hrun⟩ := run_misaligned 1 (by decide)
  have hm := h 1 _ _ os p ⟨.write, 5, some [7, 0, 0, 0], 4, .incomplete, false⟩ 0 (by decide) hrun
  refine (meetsMap_iff (by decide) p _ 0).1 hm ⟨⟨rfl, rfl⟩, ?_, ?_⟩
  · decide
  · decide

end CdcVp
