import CdcVp.PlicGateway
import CdcVp.PlicRegs
import CdcVp.SocIrq

/-!
# The trap handler and the PLIC

What the handler does to the claim/complete register over any number of traps. `claims` is what a trace shows there,
and `On` an assertion about it and the flag of source 1: all inputs but those at the register keep one. A trap that
claims the source completes it, unless an access to the I2C or the UART faults in between, which leaves it claimed.
-/

namespace CdcVp
open FlatStore LittleEndian Programs Runs

namespace Plic
variable {n : Nat} {p p' : Plic n} {t : Payload} {d : Nat} {op : Op n} {o : List Event} {ptr : List UInt8}

/-- An operation elsewhere shows nothing at the claim register and leaves the flags. -/
theorem quiet_step (hn : n ≤ 31) (h : machine n p op = some (p', o))
    (hop : ∀ t d, op = .transport t d → t.address ≠ kClaim) : o = [] ∧ p'.claimed = p.claimed := by
  rcases machine_cases h with ⟨t, d, rfl, rfl, rfl⟩ | ⟨irqIn, rfl, rfl, rfl⟩ | ⟨rfl, -, rfl, rfl⟩
  · have hne := hop t d rfl
    refine ⟨by simp [observed, hne], ?_⟩
    rw [bTransport_fst]
    cases he : p.evaluates (.transport t d) with
    | none => rfl
    | some q =>
      obtain ⟨ptr, r, -, -, hr, hq⟩ := evaluates_transport.1 he
      have hsel := (decode_iff hn).1 hr
      show q.claimed = p.claimed
      split at hq
      · cases r with
        | claim => exact absurd hsel hne
        | _ => cases hq
      · cases r with
        | claim => exact absurd hsel hne
        | priority id =>
          obtain ⟨-, hq⟩ := Option.ite_none_right_eq_some.1 hq
          cases hq
          rfl
        | pending => cases hq
        | enable | threshold => cases hq; rfl
  · exact ⟨rfl, rfl⟩
  · exact ⟨rfl, rfl⟩

theorem machine_claim (hn : n ≤ 31) (hb : t.HasBuffer ptr) (hl : t.dataLength = 4) (hc : t.command = .read)
    (ha : t.address = kClaim) (p : Plic n) :
    machine n p (.transport t d) = some (p.doClaim.1, if p.best = 0 then [] else [.claim p.best]) := by
  have hv : value ((bytes 4 p.best).take 4) = p.best := by
    rw [List.take_of_length_le (by simp), value_bytes_of_lt (best_lt hn p)]
  simp only [machine, bTransport_claim hn hb hl hc ha, observed, hc, ha, and_self, if_true, Option.getD_some, hv]

theorem machine_complete (hn : n ≤ 31) (hp : t.dataPtr = some ptr) (hl : t.dataLength = 4) (hc : t.command ≠ .read)
    (ha : t.address = kClaim) (p : Plic n) : machine n p (.transport t d) =
      some (p.doComplete (wordOf ptr), [.complete (wordOf ptr).toNat (p.isClaimed (wordOf ptr).toNat)]) := by
  have hd : decode n t.address = some .claim := (decode_iff hn).2 ha
  have hw := bTransport_write (d := d) hp hl hd hc p
  have hobs : p.observed t (p.bTransport t d).2.1 =
      [.complete (wordOf ptr).toNat (p.isClaimed (wordOf ptr).toNat)] := by
    rw [hw]
    simp only [observed, ha, hc, and_self, if_true, if_false, hp, Option.getD_some, toNat_wordOf]
  show some ((p.bTransport t d).1, p.observed t (p.bTransport t d).2.1) = _
  rw [hobs, hw]
  rfl

end Plic

namespace RiscvCustomSoc
variable {υ ι : Type*} {t : Payload} {d : Nat}

theorem dispatch_plic (h : plicRange.contains t.address = true) :
    dispatch (.transport t d : Op υ ι) = some (.plic (.transport (plicRange.toLocal t) d)) := by
  have hno {rg : AddressRange} (hap : plicRange.base.toNat + plicRange.size.toNat ≤ rg.base.toNat ∨
      rg.base.toNat + rg.size.toNat ≤ plicRange.base.toNat) : ¬ rg.contains t.address = true :=
    AddressRange.not_contains h hap
  rw [dispatch, if_neg (hno (by decide)), if_neg (hno (by decide)), if_neg (hno (by decide)), if_pos h]

/-- A transaction for the PLIC is one in its region. -/
theorem of_dispatch_plic {op : Op υ ι} {t' : Payload}
    (h : (dispatch op).bind Act.toPlic = some (.transport t' d)) :
    ∃ t, op = .transport t d ∧ plicRange.contains t.address = true ∧ t' = plicRange.toLocal t := by
  cases op with
  | transport t e =>
    simp only [dispatch] at h
    split_ifs at h with h₁ h₂ h₃ h₄ h₅ <;> simp [Act.toPlic] at h
    obtain ⟨rfl, rfl⟩ := h
    exact ⟨t, rfl, h₄, rfl⟩
  | _ => simp [dispatch, Act.toPlic] at h

end RiscvCustomSoc

namespace SocIrqRiscv
open RiscvCustomSoc

section
variable {υ ι : Type*} {ip : Ip υ ι} {s s' : RiscvCustomSoc υ ι} {op : Op υ ι} {o : List Payload}

/-- What a trace shows at the claim/complete register. -/
def claims (tr : Trace υ ι) : List Plic.Event :=
  tr.flatMap (partObs (Plic.machine kNumPlicSources) plic fun op => (dispatch op).bind Act.toPlic)

theorem claims_append (tr tr' : Trace υ ι) : claims (tr ++ tr') = claims tr ++ claims tr' :=
  List.flatMap_append

theorem claims_snoc {p : Plic kNumPlicSources} {ev : List Plic.Event} {j : Plic.Op kNumPlicSources}
    (hd : dispatch op = some (.plic j)) (hj : Plic.machine kNumPlicSources s.plic j = some (p, ev))
    (tr : Trace υ ι) : claims (tr ++ [⟨s, op, s', o⟩]) = claims tr ++ ev := by
  rw [claims_append]
  congr 1
  simp [claims, partObs, hd, Act.toPlic, hj]

/-- A step that is not at the register shows nothing there and leaves the flag. -/
theorem quiet_step (h : machine ip s op = some (s', o)) (hop : ¬ AtClaim op) (tr : Trace υ ι) :
    claims (tr ++ [⟨s, op, s', o⟩]) = claims tr ∧ s'.plic.isClaimed 1 = s.plic.isClaimed 1 := by
  cases hon : (dispatch op).bind Act.toPlic with
  | none =>
    have hobs : claims [⟨s, op, s', o⟩] = [] := by simp [claims, partObs, hon]
    rw [claims_append, hobs, List.append_nil, (part_plic ip).keeps h hon]
    exact ⟨rfl, rfl⟩
  | some j =>
    obtain ⟨o', hj⟩ := (part_plic ip).takes j h hon
    have hne : ∀ t d, j = .transport t d → t.address ≠ Plic.kClaim := by
      rintro t' d rfl ha
      obtain ⟨t, rfl, -, rfl⟩ := of_dispatch_plic hon
      have hsum : Plic.kClaim + kPlicBase = plicClaim := by decide
      have hsub : t.address - kPlicBase = Plic.kClaim := ha
      refine hop ?_
      rw [AtClaim, ← hsum, ← hsub, UInt64.sub_add_cancel]
    obtain ⟨rfl, hcl⟩ := Plic.quiet_step (by decide) hj hne
    have hobs : claims [⟨s, op, s', o⟩] = [] := by simp [claims, partObs, hon, hj]
    rw [claims_append, hobs, List.append_nil, Plic.isClaimed_of_claimed hcl]
    exact ⟨rfl, rfl⟩

end

/-! ### Assertions -/

/-- Events at the claim/complete register in which each claim is completed before the next. -/
inductive Paired : List Plic.Event → Prop
  | nil : Paired []
  | served {evs : List Plic.Event} : Paired evs → Paired (evs ++ [.claim 1, .complete 1 true])
  | spurious {evs : List Plic.Event} (w : Bool) : Paired evs → Paired (evs ++ [.complete 0 w])

/-- What one trap does: the flags it leaves, and the events at the register. -/
inductive Handled (mcause : UInt32) (v : Vars) : Vars → List Plic.Event → Prop
  | timer : code mcause = 7 → Handled mcause v { v with timerDone := true, mie := v.mie &&& ~~~mieMtie } []
  | served : code mcause = 11 → Handled mcause v { v with extDone := true } [.claim 1, .complete 1 true]
  | spurious (w : Bool) : code mcause = 11 → Handled mcause v v [.complete 0 w]
  | other : code mcause ≠ 7 → code mcause ≠ 11 → Handled mcause v v []

/-- An access at `a` that was not answered OK. -/
def Faults (a : UInt64) (r : Payload) : Prop := r.responseStatus ≠ .ok ∧ r.address = a

section
variable {υ ι ν : Type*} {ip : Ip υ ι} {E : Op υ ι → Prop} {F : List Plic.Event → Bool → Prop} {t : Payload}
  {evs₀ : List Plic.Event} {R : Payload → Assn (RiscvCustomSoc υ ι) (Op υ ι) Payload ν}
  {P : Assn (RiscvCustomSoc υ ι) (Op υ ι) Payload ν}

/-- An assertion about the events at the register and the flag of source 1. -/
def On (F : List Plic.Event → Bool → Prop) : Assn (RiscvCustomSoc υ ι) (Op υ ι) Payload ν :=
  fun _ tr s => F (claims tr) (s.plic.isClaimed 1)

theorem keeps_on (hE : ∀ op, E op → ¬ AtClaim op) (v : ν) : Keeps (machine ip) E (On F v) := by
  intro tr s op s' o hop h hF
  obtain ⟨hcl, hflag⟩ := quiet_step h (hE op hop) tr
  rw [On, hcl, hflag]
  exact hF

theorem stable_on (hE : ∀ op, E op → ¬ AtClaim op) : Stable (.inputs (machine ip) E) (On (ν := ν) F) R :=
  stable_inputs (keeps_on hE)

/-- An access elsewhere keeps what holds of the register. -/
theorem access_on (hE : ∀ op, E op → ¬ AtClaim op) (hne : t.address ≠ plicClaim) :
    Triple (machine ip) (.inputs (machine ip) E) (On (ν := ν) F) (access t) (fun _ => On F)
      (fun r => On fun evs c => F evs c ∧ Faults t.address r) := by
  refine access_triple (stable_on hE) (fun _ => stable_on hE) (fun _ => stable_on hE) ?_
  intro v tr s r hF hm hs
  obtain ⟨hcl, hflag⟩ := quiet_step hm hne tr
  refine ⟨fun _ => ?_, fun hno => ⟨?_, hno, hs.address⟩⟩
  · rw [On, hcl, hflag]
    exact hF
  · rw [hcl, hflag]
    exact hF

theorem uartPuts_on (hE : ∀ op, E op → ¬ AtClaim op) (s : List UInt8) :
    Triple (machine ip) (.inputs (machine ip) E) (On (ν := ν) F) (uartPuts s) (fun _ => On F)
      (fun r => On fun evs c => F evs c ∧ Faults uartTx r) := by
  refine .forEach (I := fun _ => On F) (fun _ => stable_on hE) fun _ c _ _ => ?_
  refine .bind (access_on hE (by show uartTx ≠ plicClaim; decide)) fun _ => ?_
  exact Triple.ret (stable_on hE) fun _ _ _ h => h

theorem store32_on (hE : ∀ op, E op → ¬ AtClaim op) {a : UInt64} (hne : a ≠ plicClaim) (v : UInt32) :
    Triple (machine ip) (.inputs (machine ip) E) (On (ν := ν) F) (store32 a v) (fun _ => On F)
      (fun r => On fun evs c => F evs c ∧ Faults a r) := by
  refine .bind (access_on hE hne) fun _ => ?_
  exact Triple.ret (stable_on hE) fun _ _ _ h => h

/-- At some point on the way source 1 was neither claimed nor eligible, with `K` there. -/
def Missed (K : Trace υ ι → RiscvCustomSoc υ ι → Prop) (tr : Trace υ ι) : Prop :=
  ∃ tr₁ s, tr₁ <+: tr ∧ K tr₁ s ∧ s.plic.isClaimed 1 = false ∧ ¬ s.plic.AnyEligible

theorem Missed.append {K : Trace υ ι → RiscvCustomSoc υ ι → Prop} {tr : Trace υ ι} (h : Missed K tr)
    (tr' : Trace υ ι) : Missed K (tr ++ tr') := by
  obtain ⟨tr₁, s, hpre, h⟩ := h
  exact ⟨tr₁, s, hpre.trans (List.prefix_append _ _), h⟩

theorem keeps_missed (ip : Ip υ ι) (K : Trace υ ι → RiscvCustomSoc υ ι → Prop) (φ : Prop) :
    Keeps (machine ip) E fun tr _ => φ ∨ Missed K tr :=
  fun _ _ _ _ _ _ _ h => h.imp_right fun h => h.append _

/-- A claim returns the source, now claimed, or 0 if it is not eligible. -/
theorem load32_claim {K : Trace υ ι → RiscvCustomSoc υ ι → Prop} (hE : ∀ op, E op → ¬ AtClaim op)
    (hK : Keeps (machine ip) E K) :
    Triple (machine ip) (.inputs (machine ip) E)
      (fun (v : ν) tr s => On (fun evs c => evs = evs₀ ∧ c = false) v tr s ∧ K tr s) (load32 plicClaim)
      (fun id v tr s => On (fun evs c => id = 1 ∧ evs = evs₀ ++ [.claim 1] ∧ c = true ∨
        id ≠ 1 ∧ id.toNat = 0 ∧ evs = evs₀ ∧ c = false) v tr s ∧ (id = 1 ∨ Missed K tr)) R := by
  have hkeeps {F : List Plic.Event → Bool → Prop} {φ : Prop} (v : ν) :
      Keeps (machine ip) E fun tr s => On F v tr s ∧ (φ ∨ Missed K tr) :=
    fun tr s op s' o hop hm h =>
      ⟨keeps_on hE v tr s op s' o hop hm h.1, keeps_missed (E := E) ip K φ tr s op s' o hop hm h.2⟩
  have hacc : Triple (machine ip) (.inputs (machine ip) E)
      (fun (v : ν) tr s => On (fun evs c => evs = evs₀ ∧ c = false) v tr s ∧ K tr s) (access (loadOf plicClaim))
      (fun r v tr s => On (fun evs c => r.dataPtr = some (bytes 4 1) ∧ evs = evs₀ ++ [.claim 1] ∧ c = true ∨
        r.dataPtr = some (bytes 4 0) ∧ evs = evs₀ ∧ c = false) v tr s ∧
          (r.dataPtr = some (bytes 4 1) ∨ Missed K tr)) R := by
    refine access_answered (fun v tr s op s' o hop hm h =>
      ⟨keeps_on hE v tr s op s' o hop hm h.1, hK tr s op s' o hop hm h.2⟩) (fun _ => hkeeps) ?_
    rintro v tr s r ⟨⟨rfl, hfree⟩, hk⟩ hm hs
    have hin : plicRange.contains (loadOf plicClaim).address = true := by
      show plicRange.contains plicClaim = true
      decide
    have hb : (plicRange.toLocal (loadOf plicClaim)).HasBuffer [0, 0, 0, 0] := ⟨rfl, rfl⟩
    have ha : (plicRange.toLocal (loadOf plicClaim)).address = Plic.kClaim := by
      show plicClaim - kPlicBase = Plic.kClaim
      decide
    have hstep := Plic.machine_claim (d := 0) (by decide) hb rfl rfl ha s.plic
    obtain rfl := hs.takes .plic hin
    have hout := Plic.bTransport_claim (by decide) hb rfl rfl ha s.plic 0
    refine ⟨by rw [hout]; rfl, ?_⟩
    rw [On, claims_snoc (dispatch_plic hin) hstep, hout]
    have hflag := Plic.isClaimed_doClaim s.plic 1
    rw [hfree] at hflag
    rcases s.plic.best_cases with ⟨h0, hno⟩ | ⟨hne, hle, -⟩
    · refine ⟨.inr ⟨by rw [h0]; rfl, by rw [if_pos h0, List.append_nil], ?_⟩,
        .inr ⟨tr, s, List.prefix_append _ _, hk, hfree, hno⟩⟩
      show s.plic.doClaim.1.isClaimed 1 = false
      simpa [h0] using hflag
    · have h1 : s.plic.best = 1 := Nat.le_antisymm hle (Nat.one_le_iff_ne_zero.2 hne)
      refine ⟨.inl ⟨by rw [h1]; rfl, by rw [h1]; rfl, ?_⟩, .inl (by rw [h1]; rfl)⟩
      exact hflag.2 (.inr ⟨hne, h1.symm⟩)
  refine .bind hacc fun r => .ret (stable_inputs hkeeps) ?_
  rintro v tr s ⟨⟨hr, he, hc⟩ | ⟨hr, he, hc⟩, hmiss⟩
  · refine ⟨.inl ⟨?_, he, hc⟩, .inl ?_⟩
    all_goals
      rw [hr]
      decide
  · refine ⟨.inr ⟨?_, ?_, he, hc⟩, .inr (hmiss.resolve_left ?_)⟩
    all_goals
      rw [hr]
      decide

/-- A write at the register shows a complete of the word, and clears the flag if that is 1. -/
theorem store32_claim (hE : ∀ op, E op → ¬ AtClaim op) {c₀ : Bool} (id : UInt32) :
    Triple (machine ip) (.inputs (machine ip) E) (On (ν := ν) fun evs c => evs = evs₀ ∧ c = c₀) (store32 plicClaim id)
      (fun _ => On fun evs c => ∃ w, (id.toNat = 1 → w = c₀) ∧ evs = evs₀ ++ [.complete id.toNat w] ∧
        c = (c₀ && id.toNat ≠ 1)) R := by
  have hacc : Triple (machine ip) (.inputs (machine ip) E) (On (ν := ν) fun evs c => evs = evs₀ ∧ c = c₀)
      (access (storeOf plicClaim 4 (bytes 4 id.toNat))) (fun _ => On fun evs c => ∃ w, (id.toNat = 1 → w = c₀) ∧
        evs = evs₀ ++ [.complete id.toNat w] ∧ c = (c₀ && id.toNat ≠ 1)) R := by
    refine access_answered (keeps_on hE) (fun _ => keeps_on hE) ?_
    rintro v tr s r ⟨rfl, rfl⟩ hm hs
    have hin : plicRange.contains (storeOf plicClaim 4 (bytes 4 id.toNat)).address = true := by
      show plicRange.contains plicClaim = true
      decide
    have hl : (plicRange.toLocal (storeOf plicClaim 4 (bytes 4 id.toNat))).dataLength = 4 := rfl
    have hw : (Plic.wordOf (bytes 4 id.toNat)) = id := by
      rw [← UInt32.toNat_inj, Plic.toNat_wordOf, List.take_of_length_le (by simp), value_bytes_of_lt id.toNat_lt]
    have ha : (plicRange.toLocal (storeOf plicClaim 4 (bytes 4 id.toNat))).address = Plic.kClaim := by
      show plicClaim - kPlicBase = Plic.kClaim
      decide
    have hc : (plicRange.toLocal (storeOf plicClaim 4 (bytes 4 id.toNat))).command ≠ .read :=
      show TlmCommand.write ≠ TlmCommand.read by decide
    have hstep := Plic.machine_complete (n := 1) (d := 0) (by decide) rfl hl hc ha s.plic
    obtain rfl := hs.takes .plic hin
    have hout : (s.plic.bTransport (plicRange.toLocal (storeOf plicClaim 4 (bytes 4 id.toNat))) 0) =
        (s.plic.doComplete id, { plicRange.toLocal (storeOf plicClaim 4 (bytes 4 id.toNat)) with
          responseStatus := .ok }, 0 + 10000) := by
      rw [Plic.bTransport_write rfl hl ((Plic.decode_iff (r := .claim) (by decide)).2 ha) hc, hw]
      rfl
    rw [hw] at hstep
    refine ⟨by rw [hout]; rfl, ?_⟩
    rw [On, claims_snoc (dispatch_plic hin) hstep, hout]
    refine ⟨_, ?_, rfl, ?_⟩
    · intro h1
      rw [h1]
    · have hflag := Plic.isClaimed_doComplete s.plic id 1
      show (s.plic.doComplete id).isClaimed 1 = _
      rw [Bool.eq_iff_iff, hflag, Bool.and_eq_true, decide_eq_true_eq]
      exact and_congr_right fun _ =>
        ⟨fun h h1 => h ⟨h1.symm, Nat.le_refl 1, Nat.le_refl 1⟩, fun h h' => h h'.1.symm⟩
  exact .bind hacc fun _ => .ret (stable_on hE) fun _ _ _ h => h

/-! ### The handler -/

/-- What a trap leaves at the register when an access of it faults. -/
def Stuck (mcause : UInt32) (evs₀ : List Plic.Event) (r : Payload) (evs : List Plic.Event) (c : Bool) : Prop :=
  code mcause = 7 ∧ Faults uartTx r ∧ evs = evs₀ ∧ c = false ∨
  code mcause = 11 ∧ (Faults i2cIicr r ∨ Faults uartTx r) ∧ evs = evs₀ ++ [.claim 1] ∧ c = true

theorem serve_on (hE : ∀ op, E op → ¬ AtClaim op) (id : UInt32) (v : Vars) :
    Triple (machine ip) (.inputs (machine ip) E) (On (ν := ν) F) (serve id v)
      (fun w => On fun evs c => (w = if id = 1 then { v with extDone := true } else v) ∧ F evs c)
      (fun r => On fun evs c => F evs c ∧ id = 1 ∧ (Faults i2cIicr r ∨ Faults uartTx r)) := by
  unfold serve
  by_cases hid : id = 1
  · simp only [if_pos hid]
    refine .bind (Q := fun _ => On F) ?_ fun _ => .bind (Q := fun _ => On F) ?_ fun _ => ?_
    · exact (store32_on hE (by decide) _).mono (fun _ _ _ h => h) (fun _ _ _ _ h => h)
        fun _ _ _ _ h => ⟨h.1, hid, .inl h.2⟩
    · exact (uartPuts_on hE _).mono (fun _ _ _ h => h) (fun _ _ _ _ h => h) fun _ _ _ _ h => ⟨h.1, hid, .inr h.2⟩
    · exact .ret (stable_on hE) fun _ _ _ h => ⟨rfl, h⟩
  · simp only [if_neg hid]
    exact .ret (stable_on hE) fun _ _ _ h => ⟨rfl, h⟩

/-- A trap that finds nothing to claim. -/
theorem spurious_on (evs₀ : List Plic.Event) (hE : ∀ op, E op → ¬ AtClaim op) {id : UInt32} (hid : id ≠ 1)
    (h0 : id.toNat = 0) (v : Vars) :
    Triple (machine ip) (.inputs (machine ip) E) (On (ν := ν) fun evs c => evs = evs₀ ∧ c = false)
      ((serve id v).bind fun w => (store32 plicClaim id).bind fun _ => .ret w)
      (fun w => On fun evs c => w = v ∧ c = false ∧ ∃ was, evs = evs₀ ++ [.complete 0 was]) R := by
  refine .bind (Q := fun w => On fun evs c => w = v ∧ evs = evs₀ ∧ c = false) ?_ fun w => .of_pure fun hw => ?_
  · rw [serve, if_neg hid]
    exact .ret (stable_on hE) fun _ _ _ h => ⟨rfl, h⟩
  · refine .bind (store32_claim hE id) fun _ => .ret (stable_on hE) ?_
    rintro _ tr s ⟨was, -, he, hc⟩
    rw [h0] at he
    exact ⟨hw, hc, was, he⟩

/-- A trap that has claimed the source. -/
theorem served_on (evs₀ : List Plic.Event) (hE : ∀ op, E op → ¬ AtClaim op) (v : Vars) :
    Triple (machine ip) (.inputs (machine ip) E) (On (ν := ν) fun evs c => evs = evs₀ ++ [.claim 1] ∧ c = true)
      ((serve 1 v).bind fun w => (store32 plicClaim 1).bind fun _ => .ret w)
      (fun w => On fun evs c => w = { v with extDone := true } ∧ c = false ∧
        evs = evs₀ ++ [.claim 1, .complete 1 true])
      (fun r => On fun evs c => (Faults i2cIicr r ∨ Faults uartTx r) ∧ evs = evs₀ ++ [.claim 1] ∧ c = true) := by
  refine .bind (Q := fun w => On fun evs c => w = { v with extDone := true } ∧ evs = evs₀ ++ [.claim 1] ∧ c = true)
    ?_ fun w => .of_pure fun hw => ?_
  · exact (serve_on (F := fun evs c => evs = evs₀ ++ [.claim 1] ∧ c = true) hE 1 v).mono (fun _ _ _ h => h)
      (fun _ _ _ _ h => ⟨by rw [h.1, if_pos rfl], h.2⟩) fun _ _ _ _ h => ⟨h.2.2, h.1⟩
  · refine .bind (store32_claim hE 1) fun _ => .ret (stable_on hE) ?_
    rintro _ tr s ⟨was, hwas, he, hc⟩
    refine ⟨hw, hc, ?_⟩
    rw [he, hwas rfl, List.append_assoc]
    rfl

/-- One trap, from a register at which nothing is claimed. It is spurious only if the source was not eligible. -/
theorem trapHandler_on (ip : Ip υ ι) (evs₀ : List Plic.Event) {K : Trace υ ι → RiscvCustomSoc υ ι → Prop}
    (hE : ∀ op, E op → ¬ AtClaim op) (hK : Keeps (machine ip) E K) (mcause : UInt32) (v : Vars) :
    Triple (machine ip) (.inputs (machine ip) E)
      (fun (u : ν) tr s => On (fun evs c => evs = evs₀ ∧ c = false) u tr s ∧ K tr s) (trapHandler mcause v)
      (fun w _ tr s => s.plic.isClaimed 1 = false ∧ ∃ new, Handled mcause v w new ∧ claims tr = evs₀ ++ new ∧
        ((∀ was, new ≠ [.complete 0 was]) ∨ Missed K tr))
      (fun r => On (Stuck mcause evs₀ r)) := by
  unfold trapHandler
  by_cases h7 : code mcause = 7
  · rw [if_pos h7]
    refine .bind (Q := fun _ => On fun evs c => evs = evs₀ ∧ c = false) ?_ fun _ => ?_
    · exact (uartPuts_on hE _).mono (fun _ _ _ h => h.1) (fun _ _ _ _ h => h)
        fun _ _ _ _ h => .inl ⟨h7, h.2, h.1.1, h.1.2⟩
    · refine .ret (stable_on hE) ?_
      rintro _ tr s ⟨he, hc⟩
      exact ⟨hc, [], .timer h7, by rw [List.append_nil, he], .inl fun _ => nofun⟩
  rw [if_neg h7]
  by_cases h11 : code mcause = 11
  swap
  · rw [if_neg h11]
    refine .ret (stable_inputs fun v tr s op s' o hop hm h =>
      ⟨keeps_on hE v tr s op s' o hop hm h.1, hK tr s op s' o hop hm h.2⟩) ?_
    rintro _ tr s ⟨⟨he, hc⟩, -⟩
    exact ⟨hc, [], .other h7 h11, by rw [List.append_nil, he], .inl fun _ => nofun⟩
  rw [if_pos h11]
  refine .bind (load32_claim hE hK) fun id => ?_
  by_cases hid : id = 1
  · subst hid
    refine (served_on evs₀ hE v).mono ?_ ?_ fun _ _ _ _ h => .inr ⟨h11, h⟩
    · rintro _ tr s ⟨⟨-, h⟩ | ⟨hne, -⟩, -⟩
      · exact h
      · exact absurd rfl hne
    · rintro w _ tr s ⟨rfl, hc, he⟩
      exact ⟨hc, _, .served h11, he, .inl fun _ => nofun⟩
  · by_cases h0 : id.toNat = 0
    swap
    · rintro u tr₀ s tr r u' s' ⟨⟨h1, -⟩ | ⟨-, hz, -⟩, -⟩
      · exact absurd h1 hid
      · exact absurd hz h0
    refine ((spurious_on (R := fun r => On (Stuck mcause evs₀ r)) evs₀ hE hid h0 v).frame (Prog.gives_true _)
      (keeps_missed ip K (id = 1)) (keeps_missed ip K (id = 1))).mono ?_ ?_ fun _ _ _ _ h => h.1
    · rintro _ tr s ⟨⟨h1, -⟩ | ⟨-, -, h⟩, hmiss⟩
      · exact absurd h1 hid
      · exact ⟨h, hmiss⟩
    · rintro w _ tr s ⟨⟨rfl, hc, was, he⟩, hmiss⟩
      exact ⟨hc, _, .spurious was h11, he, .inr (hmiss.resolve_left hid)⟩

end

/-! ### Trap after trap -/

/-- What traps of the causes do: `new` is paired, and the flags say what came. -/
structure Answered (causes : List UInt32) (v w : Vars) (new : List Plic.Event) : Prop where
  paired {evs : List Plic.Event} : Paired evs → Paired (evs ++ new)
  ext : w.extDone = true ↔ v.extDone = true ∨ .claim 1 ∈ new
  timer : w.timerDone = true ↔ v.timerDone = true ∨ ∃ c ∈ causes, code c = 7

namespace Answered
variable {causes causes' : List UInt32} {u v w : Vars} {new new' : List Plic.Event} {mcause : UInt32}

theorem nil (v : Vars) : Answered [] v v [] where
  paired h := by rwa [List.append_nil]
  ext := by simp
  timer := by simp

theorem append (h : Answered causes u v new) (h' : Answered causes' v w new') :
    Answered (causes ++ causes') u w (new ++ new') where
  paired hevs := by
    rw [← List.append_assoc]
    exact h'.paired (h.paired hevs)
  ext := by rw [h'.ext, h.ext, List.mem_append, or_assoc]
  timer := by
    rw [h'.timer, h.timer, or_assoc]
    simp only [List.mem_append, or_and_right, exists_or]

theorem of_handled (h : Handled mcause v w new) : Answered [mcause] v w new := by
  rcases h with h7 | h11 | ⟨was, h11⟩ | ⟨h7, h11⟩
  · exact ⟨fun h => by rwa [List.append_nil], by simp, by simp [h7]⟩
  · exact ⟨.served, by simp, by simp [h11]⟩
  · exact ⟨.spurious was, by simp, by simp [h11]⟩
  · exact ⟨fun h => by rwa [List.append_nil], by simp, by simp [h7]⟩

end Answered

section
variable {υ ι ν : Type*} {ip : Ip υ ι} {E : Op υ ι → Prop} {evs₀ : List Plic.Event}

/-- The handler, taken for one cause after another. -/
def traps : List UInt32 → Vars → Fw υ ι Vars
  | [], v => .ret v
  | mcause :: causes, v => (trapHandler mcause v).bind (traps causes)

theorem traps_on (hE : ∀ op, E op → ¬ AtClaim op) (causes : List UInt32) (v : Vars) (evs₀ : List Plic.Event) :
    Triple (machine ip) (.inputs (machine ip) E) (On (ν := ν) fun evs c => evs = evs₀ ∧ c = false) (traps causes v)
      (fun w => On fun evs c => c = false ∧ ∃ new, Answered causes v w new ∧ evs = evs₀ ++ new)
      (fun r => On fun evs c => ∃ causes' w new mcause, Answered causes' v w new ∧
        Stuck mcause (evs₀ ++ new) r evs c) := by
  induction causes generalizing v evs₀ with
  | nil =>
    refine .ret (stable_on hE) ?_
    rintro _ tr s ⟨he, hc⟩
    exact ⟨hc, [], .nil v, by rw [List.append_nil, he]⟩
  | cons mcause causes ih =>
    refine .bind (Q := fun u => On fun evs c => ∃ new, Handled mcause v u new ∧ evs = evs₀ ++ new ∧ c = false)
      ?_ fun u => ?_
    · refine (trapHandler_on ip evs₀ (K := fun _ _ => True) hE (fun _ _ _ _ _ _ _ h => h) mcause v).mono
        (fun _ _ _ h => ⟨h, trivial⟩) ?_ ?_
      · rintro u _ tr s ⟨hc, new, hh, he, -⟩
        exact ⟨new, hh, he, hc⟩
      · intro r _ tr s h
        refine ⟨[], v, [], mcause, .nil v, ?_⟩
        rw [List.append_nil]
        exact h
    · refine .exists_pre fun new => .of_pure fun hh => ?_
      have hone := Answered.of_handled hh
      refine (ih u (evs₀ ++ new)).mono (fun _ _ _ h => h) ?_ ?_
      · rintro w _ tr s ⟨hc, new', h, he⟩
        exact ⟨hc, new ++ new', hone.append h, by rw [he, List.append_assoc]⟩
      · rintro r _ tr s ⟨causes', w, new', c, h, hst⟩
        rw [List.append_assoc] at hst
        exact ⟨_, w, _, c, hone.append h, hst⟩

end

/-- The handler over any number of traps, whatever else happens on the platform but at the claim/complete register.
Each claim of source 1 is completed before the next, the flags say what was served, and the source is left unclaimed.
Only an access to the I2C or the UART can fault, and one after the claim leaves the source claimed. -/
theorem soc_irq_traps {υ ι : Type*} (ip : Ip υ ι) (causes : List UInt32) (v : Vars) (s s' : RiscvCustomSoc υ ι)
    (tr : Trace υ ι) (r : Except Payload Vars) (hfree : s.plic.isClaimed 1 = false)
    (hrun : Exec (machine ip) (.inputs (machine ip) fun op => ¬ AtClaim op) (traps causes v) () s tr r () s') :
    match r with
    | .ok w => Paired (claims tr) ∧ s'.plic.isClaimed 1 = false ∧
      (w.extDone = true ↔ v.extDone = true ∨ .claim 1 ∈ claims tr) ∧
      (w.timerDone = true ↔ v.timerDone = true ∨ ∃ c ∈ causes, code c = 7)
    | .error t => ∃ evs, Paired evs ∧
      (Faults uartTx t ∧ claims tr = evs ∧ s'.plic.isClaimed 1 = false ∨
        (Faults i2cIicr t ∨ Faults uartTx t) ∧ claims tr = evs ++ [.claim 1] ∧ s'.plic.isClaimed 1 = true) := by
  have h := traps_on (ν := Unit) (fun _ h => h) causes v [] () [] s tr r () s' ⟨rfl, hfree⟩ hrun
  cases r with
  | ok w =>
    obtain ⟨hc, new, ha, he⟩ := h
    rw [List.nil_append, List.nil_append] at he
    rw [he]
    exact ⟨ha.paired .nil, hc, ha.ext, ha.timer⟩
  | error t =>
    obtain ⟨causes', w, new, mcause, ha, ⟨-, hf, he, hc⟩ | ⟨-, hf, he, hc⟩⟩ := h
    · rw [List.nil_append, List.nil_append] at he
      exact ⟨new, ha.paired .nil, .inl ⟨hf, he, hc⟩⟩
    · rw [List.nil_append, List.nil_append] at he
      exact ⟨new, ha.paired .nil, .inr ⟨hf, he, hc⟩⟩

/-- The PLIC set up for the I2C, and its line raised. -/
def i2cRaised : List (Op Unit Unit) :=
  [.transport (storeOf plicPriority1 4 [1, 0, 0, 0]) 0, .transport (storeOf plicEnable 4 [2, 0, 0, 0]) 0,
    .i2cIrq true, .onSources]

/-- Traps of both causes, with the line of the I2C raised. -/
theorem soc_irq_traps_raised : ∃ (w : Vars) (tr : Trace Unit Unit) (s s' : RiscvCustomSoc Unit Unit),
    Exec (machine Ip.idle) (.inputs (machine Ip.idle) fun op => ¬ AtClaim op)
      (traps [0x80000007, 0x8000000B] ⟨false, false, 0x880⟩) () s tr (.ok w) () s' ∧
    w.extDone = true ∧ w.timerDone = true ∧ .claim 1 ∈ claims tr ∧ Paired (claims tr) := by
  have hok : (exec (machine Ip.idle) (new () ()) i2cRaised).any (fun p =>
      !p.1.plic.isClaimed 1 &&
        ((traps [0x80000007, 0x8000000B] ⟨false, false, 0x880⟩).alone (machine Ip.idle) p.1).any fun q =>
          match q.2.1 with | .ok w => w.extDone | .error _ => false) = true := by
    decide +kernel
  obtain ⟨⟨s, os⟩, -, hp⟩ := (Option.any_eq_true _ _).1 hok
  obtain ⟨hfree, hany⟩ := Bool.and_eq_true_iff.1 hp
  obtain ⟨⟨tr, r, s'⟩, hq, hend⟩ := (Option.any_eq_true _ _).1 hany
  cases r with
  | error e => cases hend
  | ok w =>
    have h := Exec.of_alone (B := .inputs (machine Ip.idle) fun op => ¬ AtClaim op) hq ()
    obtain ⟨hpaired, -, hext, htimer⟩ := soc_irq_traps Ip.idle _ _ _ _ _ _ (by simpa using hfree) h
    have hclaim : .claim 1 ∈ claims tr := (hext.1 hend).resolve_left (by decide)
    exact ⟨w, tr, s, s', h, hend, htimer.2 (.inr ⟨0x80000007, by decide, by decide⟩), hclaim, hpaired⟩

end SocIrqRiscv
end CdcVp
