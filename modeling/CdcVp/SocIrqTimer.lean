import CdcVp.ClintBounds
import CdcVp.SocIrq

/-!
# Arming the timer

`mtime` and `mtimecmp` are 64 bits wide, and the firmware reads and writes them by halves: `Armed` is what holds of
the timer between its accesses. While the upper half of `mtime` is 0 the compare value stays 0 until its lower half
is written, so no state in between has a compare time that has passed.
-/

namespace LittleEndian

theorem bytes_add (j k n : Nat) : bytes (j + k) n = bytes j n ++ bytes k (n / 256 ^ j) := by
  induction j generalizing n with
  | zero => simp [bytes]
  | succ j ih => rw [Nat.succ_add, bytes, bytes, ih, Nat.div_div_eq_div_mul, ← pow_succ', List.cons_append]

end LittleEndian

namespace CdcVp
open FlatStore LittleEndian Programs Runs

namespace Clint
variable {c c' : Clint} {op : Op} {o : List Event} {v : UInt64} {t : Payload} {d : Nat}

/-! ### Halves -/

theorem sliceRead_high (v : UInt64) : sliceRead v 4 4 = some (bytes 4 (v.toNat / 2 ^ 32)) := by
  rw [sliceRead, if_pos (by decide), bytes_add 4 4, List.drop_left' (length_bytes 4 _),
    List.take_of_length_le (by rw [length_bytes])]
  rfl

theorem sliceRead_low (v : UInt64) : sliceRead v 0 4 = some (bytes 4 v.toNat) := by
  rw [sliceRead, if_pos (by decide), bytes_add 4 4, List.drop_zero, List.take_left' (length_bytes 4 _)]

theorem sliceWrite_high (v : UInt64) (w : UInt32) : ∃ v', sliceWrite v 4 4 (bytes 4 w.toNat) = some v' ∧
    v'.toNat = v.toNat % 2 ^ 32 + 2 ^ 32 * w.toNat := by
  refine ⟨_, if_pos (by decide), ?_⟩
  have hw := w.toNat_lt
  rw [List.take_of_length_le (by simp), blit, bytes_add 4 4, List.take_left' (length_bytes 4 _),
    List.drop_of_length_le (by simp), List.append_nil, value_append, length_bytes, value_bytes,
    value_bytes_of_lt w.toNat_lt, UInt64.toNat_ofNat']
  omega

theorem sliceWrite_low (v : UInt64) (w : UInt32) : ∃ v', sliceWrite v 0 4 (bytes 4 w.toNat) = some v' ∧
    v'.toNat = w.toNat + 2 ^ 32 * (v.toNat / 2 ^ 32) := by
  refine ⟨_, if_pos (by decide), ?_⟩
  have hv := v.toNat_lt
  have hw := w.toNat_lt
  rw [List.take_of_length_le (by simp), blit, bytes_add 4 4, List.take_zero, List.nil_append, length_bytes,
    List.drop_left' (by rw [length_bytes]), value_append, length_bytes, value_bytes_of_lt w.toNat_lt,
    value_bytes, UInt64.toNat_ofNat']
  omega

/-! ### One step -/

/-- What does not write `mtimecmp` keeps it, and raises MTIP only once its time is reached. -/
theorem quiet_step (h : machine c op = some (c', o)) (hop : ∀ t d, op = .transport t d → ¬ WritesMtimecmp t) :
    c'.mtimecmp = c.mtimecmp ∧ c.now.toNat ≤ c'.now.toNat ∧
      (c'.cpu.level kCauseTimer = true → c.cpu.level kCauseTimer = true ∨ c'.Fired) := by
  rcases step_cases h with ⟨t, d, r, rfl, hr, rfl, -⟩ | ⟨rfl, -, rfl, -⟩ | ⟨rfl, -, rfl, -⟩ |
    ⟨rfl, -, -, rfl, -⟩ | ⟨time, rfl, -, hlt, -, rfl, -⟩ | ⟨rfl, -, -, rfl, -⟩
  · rcases bTransport_cases hr with ⟨-, hs⟩ | ⟨hw, -⟩
    · exact ⟨hs.mtimecmp, by rw [hs.now], fun hl => .inl (by rwa [hs.level] at hl)⟩
    · exact absurd hw (hop t d rfl)
  · exact ⟨rfl, Nat.le_refl _, .inl⟩
  · refine ⟨c.timerTurn_mtimecmp, by rw [timerTurn_now], fun hl => .inr ?_⟩
    have hf := (level_timerTurn c).1 hl
    rwa [Fired, timerTurn_mtimecmp, timerTurn_now]
  · exact ⟨rfl, Nat.le_refl _, .inl⟩
  · exact ⟨rfl, (UInt64.lt_iff_toNat_lt.1 hlt).le, .inl⟩
  · exact ⟨rfl, Nat.le_refl _, .inl⟩

end Clint

namespace RiscvCustomSoc
variable {υ ι : Type*} {ip : Ip υ ι} {s s' : RiscvCustomSoc υ ι} {t : Payload} {d : Nat} {op : Op υ ι}
  {o : List Payload}

theorem cpu_withClint {c : Clint} (h : c.cpu = s.clint.cpu) : (s.withClint c).cpu = s.cpu := by
  rw [withClint, h, IrqPort.since_self]
  exact IrqPort.drive_nil _

theorem of_dispatch_clint {t' : Payload} (h : (dispatch op).bind Act.toClint = some (.transport t' d)) :
    ∃ t, op = .transport t d ∧ clintRange.contains t.address = true ∧ t' = clintRange.toLocal t := by
  cases op with
  | transport t e =>
    simp only [dispatch] at h
    split_ifs at h with h₁ h₂ h₃ h₄ h₅ <;> simp [Act.toClint] at h
    obtain ⟨rfl, rfl⟩ := h
    exact ⟨t, rfl, h₃, rfl⟩
  | kernel move => cases move <;> simp [dispatch, Act.toClint, Kernel.op] at h
  | _ => simp [dispatch, Act.toClint] at h

def mtime (s : RiscvCustomSoc υ ι) : Nat := s.clint.now.toNat / 10 ^ 6

end RiscvCustomSoc

namespace SocIrqRiscv
open RiscvCustomSoc

section
variable {υ ι : Type*} {ip : Ip υ ι} {s s' : RiscvCustomSoc υ ι} {op : Op υ ι} {o : List Payload}
  {V : UInt64} {T m m' : Nat} {tr : Trace υ ι}

/-- `mtimecmp` is `V`, `mtime` has reached `m`, and MTIP is low and has been in all steps unless `mtime` had reached
`T`. -/
structure Armed (V : UInt64) (T m : Nat) (tr : Trace υ ι)
    (s : RiscvCustomSoc υ ι) : Prop where
  wired : Wired s
  mtimecmp : s.clint.mtimecmp = V
  after : m ≤ s.mtime
  level : s.cpu.level Clint.kCauseTimer = true → T ≤ s.mtime
  past : ∀ e ∈ tr, e.post.cpu.level Clint.kCauseTimer = true → T ≤ e.post.mtime

namespace Armed

theorem mono (h : Armed V T m tr s) (hm : m' ≤ m) : Armed V T m' tr s :=
  ⟨h.wired, h.mtimecmp, hm.trans h.after, h.level, h.past⟩

/-- The past of a step is that of the state before and the state itself. -/
theorem snoc_past (h : Armed V T m tr s) (hl : s'.cpu.level Clint.kCauseTimer = true → T ≤ s'.mtime) :
    ∀ e ∈ tr ++ [⟨s, op, s', o⟩], e.post.cpu.level Clint.kCauseTimer = true → T ≤ e.post.mtime :=
  List.forall_mem_append.2 ⟨h.past, List.forall_mem_singleton.2 hl⟩

theorem step (hT : V ≠ 0 → T ≤ V.toNat) (hop : ¬ SetsTimer op) (hm : machine ip s op = some (s', o))
    (h : Armed V T m tr s) : Armed V T m (tr ++ [⟨s, op, s', o⟩]) s' := by
  have hw := Wired.step hm h.wired
  have hquiet : s'.clint.mtimecmp = s.clint.mtimecmp ∧ s.clint.now.toNat ≤ s'.clint.now.toNat ∧
      (s'.clint.cpu.level Clint.kCauseTimer = true →
        s.clint.cpu.level Clint.kCauseTimer = true ∨ s'.clint.Fired) := by
    cases hon : (dispatch op).bind Act.toClint with
    | none =>
      rw [(part_clint ip).keeps hm hon]
      exact ⟨rfl, Nat.le_refl _, .inl⟩
    | some j =>
      obtain ⟨o', hj⟩ := (part_clint ip).takes j hm hon
      refine Clint.quiet_step hj ?_
      rintro t' d rfl hwr
      obtain ⟨t, rfl, hin, rfl⟩ := of_dispatch_clint hon
      exact hop ⟨hin, hwr⟩
  obtain ⟨hcmp, hnow, hl⟩ := hquiet
  have hmono : s.mtime ≤ s'.mtime := Nat.div_le_div_right hnow
  have hlevel : s'.cpu.level Clint.kCauseTimer = true → T ≤ s'.mtime := by
    intro hup
    rw [hw.clint _ (by decide)] at hup
    rcases hl hup with hold | ⟨hz, hf⟩
    · rw [← h.wired.clint _ (by decide)] at hold
      exact (h.level hold).trans hmono
    · rw [hcmp, h.mtimecmp] at hz hf
      exact (hT hz).trans hf
  exact ⟨hw, hcmp.trans h.mtimecmp, h.after.trans hmono, hlevel, h.snoc_past hlevel⟩

end Armed

/-! ### Accesses to the halves -/

section
variable {a : UInt64} {r : RiscvCustomSoc υ ι × Payload × Nat} {w : UInt32}

theorem clint_read (ht : Clint.target (clintRange.toLocal (loadOf a)) = .mtime) {bs : List UInt8}
    (hin : clintRange.contains a = true)
    (hbs : Clint.sliceRead s.clint.nowMtime (Clint.sub Clint.kRegMtime (clintRange.toLocal (loadOf a))).toNat 4 =
      some bs)
    (hs : Served ip s (loadOf a) 0 r) :
    r.2.1.responseStatus = .ok ∧ r.2.1.dataPtr = some (blit [0, 0, 0, 0] 0 bs) := by
  obtain ⟨c, hc, rfl⟩ := hs.takes .clint hin
  rw [Clint.bTransport_target, ht] at hc
  obtain ⟨bs', hbs', rfl⟩ := Option.map_eq_some_iff.1 hc
  obtain rfl := Option.some.inj (hbs.symm.trans hbs')
  exact ⟨rfl, rfl⟩

theorem blit_word (bs : List UInt8) (h : bs.length = 4) : blit [0, 0, 0, 0] 0 bs = bs := blit_all h

theorem read_mtimeHi (hs : Served ip s (loadOf clintMtimeHi) 0 r) :
    r.2.1.responseStatus = .ok ∧ r.2.1.dataPtr = some (bytes 4 (s.mtime / 2 ^ 32)) := by
  have hbs : Clint.sliceRead s.clint.nowMtime 4 4 = some (bytes 4 (s.mtime / 2 ^ 32)) := by
    rw [Clint.sliceRead_high, Clint.toNat_nowMtime]
    rfl
  have h := clint_read (by decide) (by decide) hbs hs
  rwa [blit_word _ (length_bytes 4 _)] at h

theorem read_mtimeLo (hs : Served ip s (loadOf clintMtimeLo) 0 r) :
    r.2.1.responseStatus = .ok ∧ r.2.1.dataPtr = some (bytes 4 s.mtime) := by
  have hbs : Clint.sliceRead s.clint.nowMtime 0 4 = some (bytes 4 s.mtime) := by
    rw [Clint.sliceRead_low, Clint.toNat_nowMtime]
    rfl
  have h := clint_read (by decide) (by decide) hbs hs
  rwa [blit_word _ (length_bytes 4 _)] at h

theorem clint_write (ht : Clint.target (clintRange.toLocal (storeOf a 4 (bytes 4 w.toNat))) = .mtimecmp)
    {V' : UInt64} {k : Nat} (hin : clintRange.contains a = true)
    (hk : (Clint.sub Clint.kRegMtimecmp (clintRange.toLocal (storeOf a 4 []))).toNat = k)
    (hV : Clint.sliceWrite s.clint.mtimecmp k 4 (bytes 4 w.toNat) = some V')
    (hs : Served ip s (storeOf a 4 (bytes 4 w.toNat)) 0 r) : r.2.1.responseStatus = .ok ∧
      r.1 = s.withClint { s.clint with mtimecmp := V', cmpEvent := .delta } := by
  obtain ⟨c, hc, rfl⟩ := hs.takes .clint hin
  rw [Clint.bTransport_target, ht] at hc
  obtain ⟨V'', hV'', rfl⟩ := Option.map_eq_some_iff.1 hc
  rw [← hk] at hV
  obtain rfl := Option.some.inj (hV.symm.trans hV'')
  exact ⟨rfl, rfl⟩

theorem target_storeOf (h : Clint.InWindow Clint.kRegMtimecmp (clintRange.toLocal (storeOf a 4 [])))
    (hm : a - kClintBase ≠ Clint.kRegMsip) (bs : List UInt8) :
    Clint.target (clintRange.toLocal (storeOf a 4 bs)) = .mtimecmp :=
  Clint.target_eq_mtimecmp.2 ⟨rfl, fun h' => hm h'.1, h⟩

theorem write_mtimecmpHi (hs : Served ip s (storeOf clintMtimecmpHi 4 (bytes 4 w.toNat)) 0 r) :
    r.2.1.responseStatus = .ok ∧ ∃ V' : UInt64, V'.toNat = s.clint.mtimecmp.toNat % 2 ^ 32 + 2 ^ 32 * w.toNat ∧
      r.1 = s.withClint { s.clint with mtimecmp := V', cmpEvent := .delta } := by
  obtain ⟨V', hV, hval⟩ := Clint.sliceWrite_high s.clint.mtimecmp w
  obtain ⟨hok, hr⟩ := clint_write (target_storeOf (by decide) (by decide) _) (by decide) (by decide) hV hs
  exact ⟨hok, V', hval, hr⟩

theorem write_mtimecmpLo (hs : Served ip s (storeOf clintMtimecmpLo 4 (bytes 4 w.toNat)) 0 r) :
    r.2.1.responseStatus = .ok ∧ ∃ V' : UInt64, V'.toNat = w.toNat + 2 ^ 32 * (s.clint.mtimecmp.toNat / 2 ^ 32) ∧
      r.1 = s.withClint { s.clint with mtimecmp := V', cmpEvent := .delta } := by
  obtain ⟨V', hV, hval⟩ := Clint.sliceWrite_low s.clint.mtimecmp w
  obtain ⟨hok, hr⟩ := clint_write (target_storeOf (by decide) (by decide) _) (by decide) (by decide) hV hs
  exact ⟨hok, V', hval, hr⟩

/-- A store to `mtimecmp` drives nothing yet. -/
theorem Armed.write {V' : UInt64} (hm : machine ip s op = some (s', o))
    (hs : s' = s.withClint { s.clint with mtimecmp := V', cmpEvent := .delta }) (h : Armed V T m tr s) :
    Armed V' T m (tr ++ [⟨s, op, s', o⟩]) s' := by
  have hcpu : s'.cpu = s.cpu := by
    rw [hs]
    exact cpu_withClint rfl
  have htime : s'.mtime = s.mtime := by
    rw [hs]
    rfl
  have hlevel : s'.cpu.level Clint.kCauseTimer = true → T ≤ s'.mtime := by
    rw [hcpu, htime]
    exact h.level
  exact ⟨Wired.step hm h.wired, by rw [hs]; rfl, by rw [htime]; exact h.after, hlevel, h.snoc_past hlevel⟩

end

/-! ### The four accesses -/

section
variable {ν : Type*} {E : Op υ ι → Prop} {hi lo : UInt32}
  {R : Payload → Assn (RiscvCustomSoc υ ι) (Op υ ι) Payload ν}

/-- Nothing is armed yet, and `mtime` has reached `m`. -/
def Disarmed (m : Nat) (tr : Trace υ ι) (s : RiscvCustomSoc υ ι) : Prop :=
  ∀ T, Armed 0 T m tr s

theorem keeps_disarmed (hE : ∀ op, E op → ¬ SetsTimer op) : Keeps (machine ip) E (Disarmed m) :=
  fun _ _ _ _ _ hop hm h T => (h T).step (fun hz => absurd rfl hz) (hE _ hop) hm

/-- After steps of which `K` holds, `mtime` was `m` at a load from `a`. -/
def ReadAt (a : UInt64) (m : Nat) (K : Trace υ ι → Prop) (tr : Trace υ ι) : Prop :=
  ∃ tr₁ e tr₂, tr = tr₁ ++ e :: tr₂ ∧ K tr₁ ∧ e.input = .transport (loadOf a) 0 ∧ e.pre.mtime = m

theorem ReadAt.append {a : UInt64} {K : Trace υ ι → Prop} (h : ReadAt a m K tr) (tr' : Trace υ ι) :
    ReadAt a m K (tr ++ tr') := by
  obtain ⟨tr₁, e, tr₂, rfl, h⟩ := h
  exact ⟨tr₁, e, tr₂ ++ tr', by rw [List.append_assoc, List.cons_append], h⟩

/-- A load of a word of `mtime`. -/
theorem load32_mtime {a : UInt64} {K : Trace υ ι → Prop} (hE : ∀ op, E op → ¬ SetsTimer op)
    (hK : ∀ tr tr', K tr → K (tr ++ tr')) {f : Nat → Nat}
    (hread : ∀ (s : RiscvCustomSoc υ ι) r, Served ip s (loadOf a) 0 r →
      r.2.1.responseStatus = .ok ∧ r.2.1.dataPtr = some (bytes 4 (f s.mtime))) :
    Triple (machine ip) (.inputs (machine ip) E) (fun (_ : ν) tr s => K tr ∧ Disarmed m tr s) (load32 a)
      (fun w _ tr s => ∃ m', m ≤ m' ∧ w.toNat = f m' % 2 ^ 32 ∧ ReadAt a m' K tr ∧ Disarmed m' tr s) R := by
  have hbefore : Keeps (machine ip) E fun tr s => K tr ∧ Disarmed m tr s := by
    rintro tr s op s' o hop hm ⟨hk, h⟩
    exact ⟨hK _ _ hk, keeps_disarmed hE tr s op s' o hop hm h⟩
  have hkeeps {φ : Nat → Prop} :
      Keeps (machine ip) E fun tr s => ∃ m', m ≤ m' ∧ φ m' ∧ ReadAt a m' K tr ∧ Disarmed m' tr s := by
    rintro tr s op s' o hop hm ⟨m', hle, hφ, hr, h⟩
    exact ⟨m', hle, hφ, hr.append _, keeps_disarmed hE tr s op s' o hop hm h⟩
  refine .bind (Q := fun r _ tr s => ∃ m', m ≤ m' ∧ r.dataPtr = some (bytes 4 (f m')) ∧ ReadAt a m' K tr ∧
    Disarmed m' tr s) (access_answered (fun _ => hbefore) (fun _ _ => hkeeps) ?_) fun r =>
    .ret (stable_inputs fun _ => hkeeps) ?_
  · rintro _ tr s r ⟨hk, h⟩ hm hs
    obtain ⟨hok, hdata⟩ := hread s r hs
    refine ⟨hok, s.mtime, (h 0).after, hdata, ⟨tr, _, [], rfl, hk, rfl, rfl⟩, fun T => ?_⟩
    have hT : Armed 0 T s.mtime tr s := ⟨(h T).wired, (h T).mtimecmp, Nat.le_refl _, (h T).level, (h T).past⟩
    exact hT.step (fun hz => absurd rfl hz) (fun h' => h'.2.1 rfl) hm
  · rintro _ tr s ⟨m', hle, hdata, hr, h⟩
    refine ⟨m', hle, ?_, hr, h⟩
    rw [hdata, Option.getD_some, Plic.toNat_wordOf, List.take_of_length_le (by simp), value_bytes]
    rfl

/-- The upper half is written, and the lower is still 0. -/
def HalfArmed (hi : UInt32) (m : Nat) (tr : Trace υ ι)
    (s : RiscvCustomSoc υ ι) : Prop :=
  ∃ V : UInt64, V.toNat = 2 ^ 32 * hi.toNat ∧ Armed V 0 m tr s ∧ (hi = 0 → Disarmed m tr s)

/-- Both halves are written. With an upper half of 0, MTIP was never up before the compare time. -/
def FullArmed (hi lo : UInt32) (m : Nat) (tr : Trace υ ι)
    (s : RiscvCustomSoc υ ι) : Prop :=
  ∃ V : UInt64, V.toNat = lo.toNat + 2 ^ 32 * hi.toNat ∧ Armed V 0 m tr s ∧ (hi = 0 → Armed V V.toNat m tr s)

theorem keeps_halfArmed (hE : ∀ op, E op → ¬ SetsTimer op) : Keeps (machine ip) E (HalfArmed hi m) := by
  rintro tr s op s' o hop hm ⟨V, hV, h, hz⟩
  exact ⟨V, hV, h.step (fun _ => Nat.zero_le _) (hE op hop) hm,
    fun h0 => keeps_disarmed hE tr s op s' o hop hm (hz h0)⟩

theorem keeps_fullArmed (hE : ∀ op, E op → ¬ SetsTimer op) : Keeps (machine ip) E (FullArmed hi lo m) := by
  rintro tr s op s' o hop hm ⟨V, hV, h, hz⟩
  exact ⟨V, hV, h.step (fun _ => Nat.zero_le _) (hE op hop) hm,
    fun h0 => (hz h0).step (fun _ => Nat.le_refl _) (hE op hop) hm⟩

theorem store32_mtimecmpHi (hE : ∀ op, E op → ¬ SetsTimer op) :
    Triple (machine ip) (.inputs (machine ip) E) (fun (_ : ν) => Disarmed m) (store32 clintMtimecmpHi hi)
      (fun _ _ => HalfArmed hi m) R := by
  refine .bind (access_answered (Q := fun _ _ => HalfArmed hi m) (fun _ => keeps_disarmed hE)
    (fun _ _ => keeps_halfArmed hE) ?_) fun _ => .ret (stable_inputs fun _ => keeps_halfArmed hE) fun _ _ _ h => h
  intro _ tr s r h hm hs
  obtain ⟨hok, V, hV, hr⟩ := write_mtimecmpHi hs
  rw [(h 0).mtimecmp, UInt64.toNat_zero, Nat.zero_mod, Nat.zero_add] at hV
  refine ⟨hok, V, hV, (h 0).write hm hr, ?_⟩
  rintro rfl T
  obtain rfl : V = 0 := UInt64.toNat_inj.1 hV
  exact (h T).write hm hr

theorem store32_mtimecmpLo (hE : ∀ op, E op → ¬ SetsTimer op) :
    Triple (machine ip) (.inputs (machine ip) E) (fun (_ : ν) => HalfArmed hi m) (store32 clintMtimecmpLo lo)
      (fun _ _ => FullArmed hi lo m) R := by
  refine .bind (access_answered (Q := fun _ _ => FullArmed hi lo m) (fun _ => keeps_halfArmed hE)
    (fun _ _ => keeps_fullArmed hE) ?_) fun _ => .ret (stable_inputs fun _ => keeps_fullArmed hE) fun _ _ _ h => h
  rintro _ tr s r ⟨V₁, hV₁, h, hz⟩ hm hs
  obtain ⟨hok, V, hV, hr⟩ := write_mtimecmpLo hs
  rw [h.mtimecmp, hV₁, Nat.mul_div_cancel_left _ (by decide)] at hV
  exact ⟨hok, V, hV, h.write hm hr, fun h0 => (hz h0 V.toNat).write hm hr⟩

/-- `mtime` was `m₁` at a load of its upper half and `m₂` at a later load of its lower half. -/
def TwoReads (m₁ m₂ : Nat) : Trace υ ι → Prop := ReadAt clintMtimeLo m₂ (ReadAt clintMtimeHi m₁ fun _ => True)

/-- Arming, from a timer that nothing is armed on: the compare value is 100 past the second read, put together from
the upper half of the first. -/
theorem armTimer_triple (hE : ∀ op, E op → ¬ SetsTimer op) :
    Triple (machine ip) (.inputs (machine ip) E) (fun (_ : ν) => Disarmed m) armTimer
      (fun _ _ tr s => ∃ m₁ m₂ hi lo, (m ≤ m₁ ∧ m₁ ≤ m₂) ∧ (hi.toNat = m₁ / 2 ^ 32 % 2 ^ 32 ∧ lo.toNat = m₂ % 2 ^ 32) ∧
        TwoReads m₁ m₂ tr ∧ FullArmed hi (lo + 100) m₂ tr s) R := by
  refine Triple.mono (P := fun _ tr s => True ∧ Disarmed m tr s) ?_ (fun _ _ _ h => ⟨trivial, h⟩)
    (fun _ _ _ _ h => h) fun _ _ _ _ h => h
  refine .bind (load32_mtime (f := fun m => m / 2 ^ 32) hE (fun _ _ h => h) fun s r => read_mtimeHi) fun hi =>
    .exists_pre fun m₁ => .of_pure fun h₁ => .of_pure fun hhi => ?_
  refine .bind (load32_mtime (f := fun m => m) hE (fun _ _ h => h.append _) fun s r => read_mtimeLo) fun lo =>
    .exists_pre fun m₂ => .of_pure fun h₂ => .of_pure fun hlo => ?_
  have hstores : Triple (machine ip) (.inputs (machine ip) E) (fun (_ : ν) => Disarmed m₂)
      ((store32 clintMtimecmpHi hi).bind fun _ => store32 clintMtimecmpLo (lo + 100))
      (fun _ _ => FullArmed hi (lo + 100) m₂) R := .bind (store32_mtimecmpHi hE) fun _ => store32_mtimecmpLo hE
  have hkeeps {E : Op υ ι → Prop} : Keeps (machine ip) E fun tr _ => TwoReads m₁ m₂ tr :=
    fun _ _ _ _ _ _ _ h => h.append _
  refine (hstores.frame (Prog.gives_true _) hkeeps hkeeps).mono (fun _ _ _ h => ⟨h.2, h.1⟩) ?_ fun _ _ _ _ h => h.1
  rintro _ _ tr s ⟨h, hreads⟩
  exact ⟨m₁, m₂, hi, lo, ⟨h₁, h₂⟩, ⟨hhi, hlo⟩, hreads, h⟩

end

/-- A state in which nothing is armed. -/
theorem disarmed_of (hw : Wired s) (hcmp : s.clint.mtimecmp = 0) (hlow : s.cpu.level Clint.kCauseTimer = false) :
    Disarmed s.mtime ([] : Trace υ ι) s := by
  have hno {T : Nat} : s.cpu.level Clint.kCauseTimer = true → T ≤ s.mtime := by
    rw [hlow]
    exact fun h => absurd h (by decide)
  exact fun T => ⟨hw, hcmp, Nat.le_refl _, hno, List.forall_mem_nil _⟩

/-- The compare time that the two reads make. -/
theorem FullArmed.compare {hi lo : UInt32} {m₁ m₂ : Nat} (h : FullArmed hi (lo + 100) m₂ tr s) (h₁ : m₁ ≤ m₂)
    (hhi : hi.toNat = m₁ / 2 ^ 32 % 2 ^ 32) (hlo : lo.toNat = m₂ % 2 ^ 32) :
    m₂ ≤ s.mtime ∧ s.clint.mtimecmp.toNat = 2 ^ 32 * (m₁ / 2 ^ 32) + (m₂ + 100) % 2 ^ 32 ∧
      (m₂ + 100 < 2 ^ 32 → ∀ e ∈ tr, e.post.cpu.level Clint.kCauseTimer = true → m₂ + 100 ≤ e.post.mtime) := by
  obtain ⟨V, hV, ha, hz⟩ := h
  have hlt : s.mtime < 2 ^ 64 := by
    have := s.clint.now.toNat_lt
    rw [mtime]
    omega
  have hle := ha.after
  have hsum : (lo + 100).toNat = (m₂ + 100) % 2 ^ 32 := by
    rw [UInt32.toNat_add, hlo]
    show (m₂ % 2 ^ 32 + 100) % 2 ^ 32 = _
    omega
  rw [hsum, hhi] at hV
  refine ⟨hle, ?_, fun hnear => ?_⟩
  · rw [ha.mtimecmp, hV]
    omega
  · have hzero : hi = 0 := UInt32.toNat_inj.1 (by rw [hhi, UInt32.toNat_zero]; omega)
    have hVal : V.toNat = m₂ + 100 := by omega
    rw [← hVal]
    exact (hz hzero).past

end

/-- Arming the timer by halves, whatever else happens on the platform but a store to `mtimecmp`. It does not fault.
`m₁` and `m₂` are `mtime` at its loads of the upper and of the lower half. The compare time is 100 us past the second
iff no carry out of the lower half lies between that time and the first. While the upper half is 0, MTIP is never up
before that time, nor in the states between the accesses, and it is up from then on once the CLINT has run for the
current time. -/
theorem arm_timer {υ ι : Type*} (ip : Ip υ ι) (uart : υ) (i2c : ι) (is : List (Op υ ι)) (os : List Payload)
    (s s' : RiscvCustomSoc υ ι) (tr : Trace υ ι) (r : Except Payload Unit)
    (hreach : Run (machine ip) (new uart i2c) is os s) (hcmp : s.clint.mtimecmp = 0) (hlow : s.cpu.level 7 = false)
    (hrun : Exec (machine ip) (.inputs (machine ip) fun op => ¬ SetsTimer op) armTimer () s tr r () s') :
    r = .ok () ∧ ∃ m₁ m₂, TwoReads m₁ m₂ tr ∧ s.mtime ≤ m₁ ∧ m₁ ≤ m₂ ∧ m₂ ≤ s'.mtime ∧
      s'.clint.mtimecmp.toNat = 2 ^ 32 * (m₁ / 2 ^ 32) + (m₂ + 100) % 2 ^ 32 ∧
      (s'.clint.mtimecmp.toNat = m₂ + 100 ↔ (m₂ + 100) / 2 ^ 32 = m₁ / 2 ^ 32) ∧
      (m₂ + 100 < 2 ^ 32 → (∀ e ∈ tr, e.post.cpu.level 7 = true → m₂ + 100 ≤ e.post.mtime) ∧
        (¬ s'.clint.PendingNow → (s'.cpu.level 7 = true ↔ m₂ + 100 ≤ s'.mtime))) := by
  have h := armTimer_triple (ν := Unit) (R := fun _ _ _ _ => False) (fun _ h => h) () [] s tr r () s'
    (disarmed_of (Wired.run hreach) hcmp hlow) hrun
  cases r with
  | error e => exact h.elim
  | ok u =>
    obtain ⟨m₁, m₂, hi, lo, ⟨h₀, h₁⟩, ⟨hhi, hlo⟩, hreads, hf⟩ := h
    obtain ⟨hle, hval, hpast⟩ := hf.compare h₁ hhi hlo
    refine ⟨rfl, m₁, m₂, hreads, h₀, h₁, hle, hval, ?_, fun hnear => ⟨hpast hnear, fun hquiet => ?_⟩⟩
    · rw [hval]
      omega
    · have hend := hreach.append (hrun.run (Prog.gives_true _)).2.1.of_traced
      have hsum : s'.clint.mtimecmp.toNat = m₂ + 100 := by
        rw [hval]
        omega
      have hne : s'.clint.mtimecmp ≠ 0 := by
        intro h0
        rw [h0, UInt64.toNat_zero] at hsum
        omega
      rw [show (7 : Nat) = Clint.kCauseTimer from rfl, timer_level hend hquiet, Clint.Fired, hsum]
      exact and_iff_right hne

theorem arm_timer_idle : ∃ (tr : Trace Unit Unit) (s' : RiscvCustomSoc Unit Unit),
    Exec (machine Ip.idle) (.inputs (machine Ip.idle) fun op => ¬ SetsTimer op) armTimer () (new () ()) tr (.ok ())
      () s' ∧
      ∃ m₁ m₂, TwoReads m₁ m₂ tr ∧ m₁ ≤ m₂ ∧ m₂ ≤ s'.mtime ∧
        s'.clint.mtimecmp.toNat = 2 ^ 32 * (m₁ / 2 ^ 32) + (m₂ + 100) % 2 ^ 32 := by
  obtain ⟨_, tr, s', h⟩ := Exec.of_isOk (M := machine Ip.idle) (B := .inputs (machine Ip.idle) fun op => ¬ SetsTimer op)
    (p := armTimer) (s := new () ()) (by decide +kernel) ()
  obtain ⟨-, m₁, m₂, hreads, -, h₁, h₂, hv, -⟩ := arm_timer Ip.idle () () _ _ _ _ _ _ .nil rfl rfl h
  exact ⟨tr, s', h, m₁, m₂, hreads, h₁, h₂, hv⟩

end SocIrqRiscv
end CdcVp
