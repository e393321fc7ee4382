import CdcVp.SpiStep

/-!
# What the events of the SPI data path stand for

The controller has no log: the events of a step are shown by the model. `EventsMatch` says for each kind in
which steps it is shown, in terms of the transactions and of where `transmit` is, and what such a step does to
the FIFOs, to the buffer of the frame and to the payload.
-/

namespace CdcVp
open FlatStore LittleEndian Runs

/-- The number in the bytes that a read of `data_length` bytes has put at `data_ptr`. -/
def Payload.data (t : Payload) : Nat := value ((t.dataPtr.getD []).take t.dataLength.toNat)

namespace Spi
variable {s s' : Spi} {op : Op} {o : List Obs} {w : Word} {data : UInt16} {out : Outcome}

/-- `transmit` is at the head of its loop with a word to send. -/
def StartsFrame (s : Spi) (op : Op) : Prop :=
  op = .transmit ∧ (s.transmit = .ready ∨ s.transmit = .settled) ∧ s.reg.cr1 &&& 0x2 ≠ 0 ∧
    s.txFifo.numAvailable ≠ 0

/-- A read of DR. -/
def ReadsDr (op : Op) : Prop :=
  ∃ t d, op = .transport t d ∧ t.command = .read ∧ t.address = 0x08 ∧ t.dataLength ≤ 2

instance (s : Spi) (op : Op) : Decidable (StartsFrame s op) := by unfold StartsFrame; infer_instance

/-- A write of DR that is answered OK, with the value of its two bytes; `write_reg` takes the low byte of the
address. -/
def DrWritten (e : Step Spi Op Obs) (v : UInt16) : Prop :=
  ∃ t d t' d', e.input = .transport t d ∧ t.command = .write ∧ t.address.toUInt8 = 0x08 ∧
    v = UInt16.ofNat (value ((t.dataPtr.getD []).take 2)) ∧
    e.pre.bTransport t d = some (e.post, .returned t' d', e.obs) ∧ t'.responseStatus = .ok

/-- A read of DR that returns the value, in as many bytes as it asks for. -/
def DrReturned (e : Step Spi Op Obs) (v : UInt16) : Prop :=
  ∃ t d t' d', e.input = .transport t d ∧ t.command = .read ∧ t.address = 0x08 ∧
    e.pre.bTransport t d = some (e.post, .returned t' d', e.obs) ∧
    t'.data = v.toNat % 256 ^ t.dataLength.toNat

/-- What a step that shows the event does to the FIFOs and to the frame. -/
def Effect (s s' : Spi) : Obs → Prop
  | .accepted w => s'.txFifo.contents = s.txFifo.contents ++ [w]
  | .handed w bits => s.txFifo.contents = w :: s'.txFifo.contents ∧
      ∃ epoch delay, s'.transmit = .inPeri ⟨bits, w.val, epoch⟩ delay
  | .replied reply => ∃ f delay wake, s.transmit = .inPeri f delay ∧
      s'.transmit = .shifting { f with dataBuffer := reply } wake
  | .ended f false => s.transmit = .shifted f ∧ s'.rxFifo.contents =
      s.rxFifo.contents ++ [⟨f.dataBuffer &&& frameMask f.bitsPerFrame, f.epoch⟩]
  | .ended f true => s.transmit = .shifted f ∧ s'.rxFifo = s.rxFifo ∧ s'.reg.ris = s.reg.ris ||| 0x1
  | .popped w _ => s.rxFifo.contents = w :: s'.rxFifo.contents
  | .warning _ => True

/-- The events of a step are shown when what they stand for happens, and only then. -/
structure EventsMatch (e : Step Spi Op Obs) : Prop where
  effect : ∀ x ∈ e.obs, Effect e.pre e.post x
  accepted : ∀ w, .accepted w ∈ e.obs ↔ DrWritten e w.val ∧ w.epoch = e.pre.epoch
  handed : ∀ w bits, .handed w bits ∈ e.obs ↔ StartsFrame e.pre e.input ∧
    e.pre.txFifo.contents.head? = some w ∧ bits = bitsPerFrame e.pre.reg.cr0
  replied : ∀ r, .replied r ∈ e.obs ↔ ∃ delay, e.input = .periReturn r delay
  ended : ∀ f full, .ended f full ∈ e.obs ↔ e.input = .transmit ∧ e.pre.transmit = .shifted f ∧
    (full = true ↔ e.pre.rxFifo.numFree = 0)
  popped : ∀ w data, .popped w data ∈ e.obs ↔ ReadsDr e.input ∧ e.pre.rxFifo.numAvailable ≠ 0 ∧
    e.pre.rxFifo.contents.head? = some w ∧ data = w.val &&& frameMask (bitsPerFrame e.pre.reg.cr0)
  returned : ∀ w data, .popped w data ∈ e.obs → DrReturned e data

/-! ### What a step does -/

/-- A transaction shows no frame. -/
theorem Access.event (h : Access s s' o) {e : Obs} (he : e ∈ o) :
    (∃ text, e = .warning text) ∨ (∃ w, e = .accepted w) ∨ ∃ w data, e = .popped w data := by
  cases h with
  | other rx tx ho => exact .inl (ho e he)
  | accept v => exact .inr (.inl ⟨_, List.mem_singleton.1 he⟩)
  | pop w data => exact .inr (.inr ⟨w, data, List.mem_singleton.1 he⟩)

theorem DataStep.effect (h : DataStep s s' o) {e : Obs} (he : e ∈ o) : Effect s s' e := by
  cases h with
  | access same h =>
    cases h with
    | other rx tx ho =>
      obtain ⟨text, rfl⟩ := ho e he
      trivial
    | accept v rx tx =>
      cases List.mem_singleton.1 he
      exact (ScFifo.nbWrite_eq_some tx).1
    | pop w data rx tx =>
      cases List.mem_singleton.1 he
      exact (ScFifo.nbRead_eq_some rx).1
  | hand w head t rx tx =>
    cases List.mem_singleton.1 he
    exact ⟨(ScFifo.nbRead_eq_some tx).1, _, _, t⟩
  | reply f d wake r peri t =>
    cases List.mem_singleton.1 he
    exact ⟨f, d, wake, peri, t⟩
  | store f shifted t rx =>
    cases List.mem_singleton.1 he
    exact ⟨shifted, (ScFifo.nbWrite_eq_some rx).1⟩
  | drop f shifted t full ris rx =>
    cases List.mem_singleton.1 he
    exact ⟨shifted, rx, ris⟩
  | quiet | sleep | wake | reset | delta => cases he

/-! ### A write of DR -/

theorem writeReg_warns {offset : UInt8} {v : UInt16} {ok : Bool} (h : s.writeReg offset v = (s', ok, o))
    (hoff : offset ≠ 0x08) : ∀ e ∈ o, ∃ text, e = .warning text := by
  unfold writeReg at h
  rcases ite_eq_iff.1 h with ⟨-, h⟩ | ⟨-, h⟩
  · cases h
    exact List.forall_mem_nil _
  rcases ite_eq_iff.1 h with ⟨-, h⟩ | ⟨-, h⟩
  · cases h
    exact List.forall_mem_nil _
  rw [if_neg hoff] at h
  repeat
    rcases ite_eq_iff.1 h with ⟨-, h⟩ | ⟨-, h⟩
    · cases h
      first | exact List.forall_mem_nil _ | exact warned _
  cases h
  exact List.forall_mem_nil _

/-- A write of DR is accepted with room in `tx_fifo`, and else refused. -/
theorem accept_or_refuse {v : UInt16} {ok : Bool} (h : s.writeReg 0x08 v = (s', ok, o)) :
    ok = true ∧ o = [.accepted ⟨v, s.epoch⟩] ∨ ok = false ∧ o = [] := by
  simp +decide only [writeReg, if_true, if_false] at h
  split at h <;> cases h
  · exact .inl ⟨rfl, rfl⟩
  · exact .inr ⟨rfl, rfl⟩

theorem accepted_of_writeReg {offset : UInt8} {v : UInt16} {ok : Bool} (h : s.writeReg offset v = (s', ok, o)) :
    .accepted w ∈ o ↔ offset = 0x08 ∧ ok = true ∧ w = ⟨v, s.epoch⟩ := by
  by_cases hoff : offset = 0x08
  · subst hoff
    rcases accept_or_refuse h with ⟨rfl, rfl⟩ | ⟨rfl, rfl⟩ <;> simp
  · refine iff_of_false (fun he => ?_) fun h => hoff h.1
    obtain ⟨text, ht⟩ := writeReg_warns h hoff _ he
    cases ht

theorem not_popped_of_writeReg {offset : UInt8} {v : UInt16} {ok : Bool} (h : s.writeReg offset v = (s', ok, o)) :
    .popped w data ∉ o := by
  by_cases hoff : offset = 0x08
  · subst hoff
    rcases accept_or_refuse h with ⟨-, rfl⟩ | ⟨-, rfl⟩ <;> simp
  · intro he
    obtain ⟨text, ht⟩ := writeReg_warns h hoff _ he
    cases ht

theorem not_accepted_of_readDr {v : UInt16} (h : s.readDr = (s', v, o)) : .accepted w ∉ o := by
  unfold readDr at h
  split at h <;> cases h <;> simp

theorem accepted_of_bTransport {t : Payload} {d : Nat} (h : s.bTransport t d = some (s', out, o)) :
    .accepted w ∈ o ↔ t.command = .write ∧ t.address.toUInt8 = 0x08 ∧
      (∃ t' d', out = .returned t' d' ∧ t'.responseStatus = .ok) ∧
      w = ⟨UInt16.ofNat (value ((t.dataPtr.getD []).take 2)), s.epoch⟩ := by
  unfold bTransport at h
  dsimp only at h
  split at h
  · cases h
    refine iff_of_false List.not_mem_nil ?_
    rintro ⟨-, -, ⟨t', d', hout, -⟩, -⟩
    cases hout
  split at h
  · rename_i hcmd
    generalize hq : s.writeReg t.address.toUInt8 (UInt16.ofNat (value ((t.dataPtr.getD []).take 2))) = q at h
    obtain ⟨a, ok, o'⟩ := q
    split at h <;> cases h
    rw [accepted_of_writeReg hq, and_iff_right hcmd]
    refine and_congr_right fun _ => and_congr_left fun _ => ?_
    cases ok <;> simp
  · rename_i hcmd
    generalize hq : s.readReg t.address.toUInt16 = q at h
    obtain ⟨a, v, o'⟩ := q
    split at h <;> cases h
    refine iff_of_false ?_ fun hw => by cases hcmd.symm.trans hw.1
    rcases readReg_cases hq with ⟨-, rfl, -⟩ | ⟨-, hdr⟩
    · exact List.not_mem_nil
    · exact not_accepted_of_readDr hdr
  · rename_i hcmd
    cases h
    exact iff_of_false List.not_mem_nil fun hw => by cases hcmd.symm.trans hw.1

theorem accepted_iff (h : machine s op = some (s', o)) :
    .accepted w ∈ o ↔ DrWritten ⟨s, op, s', o⟩ w.val ∧ w.epoch = s.epoch := by
  cases op with
  | transport t d =>
    obtain ⟨⟨a, out, o'⟩, hb, heq⟩ := Option.map_eq_some_iff.1 h
    cases heq
    rw [accepted_of_bTransport hb]
    constructor
    · rintro ⟨hc, ha, ⟨t', d', rfl, hok⟩, rfl⟩
      exact ⟨⟨t, d, t', d', rfl, hc, ha, rfl, hb, hok⟩, rfl⟩
    · rintro ⟨⟨t₁, d₁, t', d', ht, hc, ha, hv, hb', hok⟩, hepoch⟩
      cases ht
      cases hb.symm.trans hb'
      refine ⟨hc, ha, ⟨t', d', rfl, hok⟩, ?_⟩
      cases w
      cases hv
      cases hepoch
      rfl
  | periReturn | resetNeg | transmit | updateIntr | updateStatusReg | handleReset | delta | advance =>
    refine iff_of_false ?_ fun hw => ?_
    · cases machine_move h <;> simp
    · obtain ⟨⟨t, d, t', d', ht, -⟩, -⟩ := hw
      cases ht

/-! ### A frame -/

theorem handed_iff (h : machine s op = some (s', o)) {bits : Nat} : .handed w bits ∈ o ↔
    StartsFrame s op ∧ s.txFifo.contents.head? = some w ∧ bits = bitsPerFrame s.reg.cr0 := by
  cases machine_move h with
  | bus t d hb =>
    refine iff_of_false (fun he => ?_) ?_
    · rcases hb.access.2.event he with ⟨_, ht⟩ | ⟨_, ht⟩ | ⟨_, _, ht⟩ <;> cases ht
    · rintro ⟨⟨ht, -⟩, -⟩
      cases ht
  | hand intr head v tx sse htx =>
    have hc := (ScFifo.nbRead_eq_some htx).1
    have hav : s.txFifo.numAvailable ≠ 0 := by rw [ScFifo.numAvailable_of_nbRead htx]; exact Nat.succ_ne_zero _
    have hstart : StartsFrame s .transmit := ⟨rfl, head.imp And.left And.left, sse, hav⟩
    rw [and_iff_right hstart, hc, List.head?_cons, List.mem_singleton]
    constructor
    · rintro ⟨⟩
      exact ⟨rfl, rfl⟩
    · rintro ⟨⟨⟩, rfl⟩
      rfl
  | sleep intr head hno =>
    refine iff_of_false List.not_mem_nil ?_
    rintro ⟨⟨-, -, hsse, hav⟩, -⟩
    exact hno.elim hsse hav
  | store f shifted | drop f shifted =>
    refine iff_of_false (by simp) ?_
    rintro ⟨⟨-, hr | hr, -⟩, -⟩ <;> cases shifted.symm.trans hr
  | reply | resetNeg | updateIntr | updateStatusReg | handleReset | delta | advance | wake =>
    refine iff_of_false (by simp) ?_
    rintro ⟨⟨ht, -⟩, -⟩
    cases ht

theorem replied_iff (h : machine s op = some (s', o)) {r : UInt16} :
    .replied r ∈ o ↔ ∃ delay, op = .periReturn r delay := by
  cases op with
  | periReturn r' delay =>
    cases machine_move h with
    | reply => simp [eq_comm]
  | transport t d =>
    refine iff_of_false ?_ (by simp)
    cases machine_move h with
    | bus _ _ hb =>
      intro he
      rcases hb.access.2.event he with ⟨_, ht⟩ | ⟨_, ht⟩ | ⟨_, _, ht⟩ <;> cases ht
  | resetNeg | transmit | updateIntr | updateStatusReg | handleReset | delta | advance =>
    refine iff_of_false ?_ (by simp)
    cases machine_move h <;> simp

theorem ended_iff (h : machine s op = some (s', o)) {f : Frame} {full : Bool} : .ended f full ∈ o ↔
    op = .transmit ∧ s.transmit = .shifted f ∧ (full = true ↔ s.rxFifo.numFree = 0) := by
  cases machine_move h with
  | bus t d hb =>
    refine iff_of_false ?_ fun hw => by cases hw.1
    intro he
    rcases hb.access.2.event he with ⟨_, ht⟩ | ⟨_, ht⟩ | ⟨_, _, ht⟩ <;> cases ht
  | store g shifted rx hrx =>
    have hroom : s.rxFifo.numFree ≠ 0 := fun h0 => by
      rw [ScFifo.nbWrite_eq_none.2 h0] at hrx
      cases hrx
    simp [shifted, hroom, eq_comm]
  | drop g shifted hfull => simp [shifted, hfull, eq_comm]
  | sleep intr head | hand intr head =>
    refine iff_of_false (by simp) ?_
    rintro ⟨-, hs, -⟩
    rcases head with ⟨hr, -⟩ | ⟨hr, -⟩ <;> cases hs.symm.trans hr
  | reply | resetNeg | updateIntr | updateStatusReg | handleReset | delta | advance | wake =>
    refine iff_of_false (by simp) fun hw => ?_
    cases hw.1

/-! ### A read of DR -/

theorem bytes_take (k j n : Nat) : (bytes k n).take j = bytes (min j k) n := by
  induction k generalizing j n with
  | zero => rw [Nat.min_zero, bytes, List.take_nil]
  | succ k ih =>
    cases j with
    | zero => rw [Nat.zero_min, List.take_zero, bytes]
    | succ j => rw [bytes, List.take_succ_cons, ih, Nat.succ_min_succ, bytes]

theorem bTransport_read {t t' : Payload} {d d' : Nat} (hc : t.command = .read)
    (h : s.bTransport t d = some (s', .returned t' d', o)) : t.dataLength.toNat ≤ 2 ∧
      ∃ data, s.readReg t.address.toUInt16 = (s', data, o) ∧
        t'.data = data.toNat % 256 ^ t.dataLength.toNat := by
  unfold bTransport at h
  dsimp only at h
  split at h
  · cases h
  · rename_i hok
    have hlen : t.dataLength.toNat ≤ 2 := UInt32.le_iff_toNat_le.1 (UInt32.not_lt.1 (not_or.1 hok).2)
    rw [hc] at h
    dsimp only at h
    split at h
    · cases h
    · rename_i hbuf
      generalize s.readReg t.address.toUInt16 = r at h ⊢
      obtain ⟨a, data, o'⟩ := r
      cases h
      refine ⟨hlen, data, rfl, ?_⟩
      rw [Nat.min_eq_right hlen, Nat.not_lt] at hbuf
      rw [Payload.data, ← value_bytes]
      dsimp only
      rw [bytes_take, Nat.min_eq_right hlen, Nat.min_eq_left hlen]
      cases hp : t.dataPtr with
      | none =>
        rw [hp, Option.getD_none, List.length_nil, Nat.le_zero] at hbuf
        rw [hbuf, List.take_zero, bytes]
      | some ptr =>
        rw [Option.map_some, Option.getD_some, blit, List.take_zero, List.nil_append,
          List.take_append_of_le_length (length_bytes _ _).ge, List.take_of_length_le (length_bytes _ _).le]

theorem popped_of_readDr {v : UInt16} (h : s.readDr = (s', v, o)) : .popped w data ∈ o ↔
    s.rxFifo.numAvailable ≠ 0 ∧ s.rxFifo.contents.head? = some w ∧
      data = w.val &&& frameMask (bitsPerFrame s.reg.cr0) := by
  unfold readDr at h
  split at h
  · rename_i hn
    cases h
    exact iff_of_false (by simp) fun h => h.1 (ScFifo.nbRead_eq_none.1 hn)
  · rename_i u rx hr
    cases h
    have hav : s.rxFifo.numAvailable ≠ 0 := by rw [ScFifo.numAvailable_of_nbRead hr]; exact Nat.succ_ne_zero _
    rw [and_iff_right hav, (ScFifo.nbRead_eq_some hr).1, List.head?_cons, List.mem_singleton]
    constructor
    · rintro ⟨⟩
      exact ⟨rfl, rfl⟩
    · rintro ⟨⟨⟩, rfl⟩
      rfl

theorem readsDr_transport {t : Payload} {d : Nat} :
    ReadsDr (.transport t d) ↔ t.command = .read ∧ t.address = 0x08 ∧ t.dataLength ≤ 2 := by
  constructor
  · rintro ⟨t', d', ⟨⟩, h⟩
    exact h
  · exact fun h => ⟨t, d, rfl, h⟩

theorem toUInt16_eq_iff {addr : UInt64} (h : addr ≤ 0xffc) : addr.toUInt16 = 0x08 ↔ addr = 0x08 := by
  have hlt : addr.toNat ≤ 4092 := UInt64.le_iff_toNat_le.1 h
  rw [← UInt16.toNat_inj, ← UInt64.toNat_inj, UInt64.toNat_toUInt16, Nat.mod_eq_of_lt (by omega)]
  rfl

theorem popped_of_bTransport {t : Payload} {d : Nat} {out : Outcome} (h : s.bTransport t d = some (s', out, o)) :
    .popped w data ∈ o ↔ (t.command = .read ∧ t.address = 0x08 ∧ t.dataLength ≤ 2) ∧
      s.rxFifo.numAvailable ≠ 0 ∧ s.rxFifo.contents.head? = some w ∧
        data = w.val &&& frameMask (bitsPerFrame s.reg.cr0) := by
  unfold bTransport at h
  dsimp only at h
  split at h
  · rename_i hbad
    cases h
    refine iff_of_false List.not_mem_nil ?_
    rintro ⟨⟨-, haddr, hlen⟩, -⟩
    rw [haddr] at hbad
    exact hbad.elim (by decide) (UInt32.not_lt.2 hlen)
  rename_i hacc
  have haddr : t.address ≤ 0xffc := UInt64.not_lt.1 fun h => hacc (.inl h)
  have hlen : t.dataLength ≤ 2 := UInt32.not_lt.1 fun h => hacc (.inr h)
  split at h
  · rename_i hcmd
    split at h <;> cases h
    refine iff_of_false (not_popped_of_writeReg rfl) ?_
    rintro ⟨⟨hr, -⟩, -⟩
    cases hcmd.symm.trans hr
  · rename_i hcmd
    generalize hq : s.readReg t.address.toUInt16 = q at h
    obtain ⟨a, v, o'⟩ := q
    split at h <;> cases h
    rw [and_iff_right hcmd, and_iff_left hlen, ← toUInt16_eq_iff haddr]
    rcases readReg_cases hq with ⟨-, rfl, hne⟩ | ⟨heq, hdr⟩
    · exact iff_of_false List.not_mem_nil fun h => hne h.1
    · rw [popped_of_readDr hdr, and_iff_right heq]
  · rename_i hcmd
    cases h
    refine iff_of_false List.not_mem_nil ?_
    rintro ⟨⟨hr, -⟩, -⟩
    cases hcmd.symm.trans hr

theorem popped_iff (h : machine s op = some (s', o)) : .popped w data ∈ o ↔
    ReadsDr op ∧ s.rxFifo.numAvailable ≠ 0 ∧ s.rxFifo.contents.head? = some w ∧
      data = w.val &&& frameMask (bitsPerFrame s.reg.cr0) := by
  cases machine_move h with
  | bus t d =>
    obtain ⟨⟨a, out, o'⟩, hb, heq⟩ := Option.map_eq_some_iff.1 h
    cases heq
    rw [readsDr_transport]
    exact popped_of_bTransport hb
  | reply | resetNeg | sleep | hand | store | drop | updateIntr | updateStatusReg | handleReset | delta
  | advance | wake =>
    refine iff_of_false (by simp) ?_
    rintro ⟨⟨t, d, ht, -⟩, -⟩
    cases ht

theorem value_of_readDr {v : UInt16} (h : s.readDr = (s', v, o)) (he : .popped w data ∈ o) : v = data := by
  unfold readDr at h
  split at h <;> cases h
  · simp at he
  · cases List.mem_singleton.1 he
    rfl

theorem silent_of_thrown {t : Payload} {d : Nat} {msgType msg : String}
    (h : s.bTransport t d = some (s', .thrown msgType msg, o)) : o = [] := by
  unfold bTransport at h
  dsimp only at h
  split at h
  · cases h
    rfl
  split at h
  · split at h <;> cases h
  · split at h <;> cases h
  · cases h

theorem returned_of_popped (h : machine s op = some (s', o)) (he : .popped w data ∈ o) :
    DrReturned ⟨s, op, s', o⟩ data := by
  obtain ⟨⟨t, d, rfl, hc, ha, -⟩, -⟩ := (popped_iff h).1 he
  obtain ⟨⟨a, out, o'⟩, hb, heq⟩ := Option.map_eq_some_iff.1 h
  cases heq
  cases out with
  | thrown =>
    rw [silent_of_thrown hb] at he
    cases he
  | returned t' d' =>
    obtain ⟨-, v, hr, hdata⟩ := bTransport_read hc hb
    refine ⟨t, d, t', d', rfl, hc, ha, hb, hdata.trans ?_⟩
    rcases readReg_cases hr with ⟨-, rfl, -⟩ | ⟨-, hdr⟩
    · cases he
    · rw [value_of_readDr hdr he]

theorem eventsMatch (h : machine s op = some (s', o)) : EventsMatch ⟨s, op, s', o⟩ where
  effect _ := (machine_dataStep h).effect
  accepted _ := accepted_iff h
  handed _ _ := handed_iff h
  replied _ := replied_iff h
  ended _ _ := ended_iff h
  popped _ _ := popped_iff h
  returned _ _ := returned_of_popped h

end Spi
end CdcVp
