import CdcVp.SpiEvents

/-!
# The SPI data path keeps every word in order

Four queues: the words accepted and not yet handed over, the frame in flight seen from its word size and
from its reply, and the words stored and not yet popped. Each step of the machine conserves each of them,
and so does a run. A reset drains the FIFOs; the one at start-up finds them with nothing to drain.
-/

namespace CdcVp
open FlatStore LittleEndian Runs

/-- The frame the thread has begun and not ended. -/
def Transmit.inFlight : Transmit → List Frame
  | .inPeri f _ | .shifting f _ | .shifted f => [f]
  | _ => []

/-- The frame in flight, once the peripheral has replied. -/
def Transmit.answered : Transmit → List Frame
  | .shifting f _ | .shifted f => [f]
  | _ => []

namespace Spi

namespace Obs

def accepted? : Obs → Option UInt16
  | .accepted w => some w.val
  | _ => none

/-- The word handed over and the word size of its frame. -/
def handed? : Obs → Option (UInt16 × Nat)
  | .handed w bits => some (w.val, bits)
  | _ => none

def replied? : Obs → Option UInt16
  | .replied r => some r
  | _ => none

/-- The completed frame, and whether `rx_fifo` was full. -/
def ended? : Obs → Option (Frame × Bool)
  | .ended f full => some (f, full)
  | _ => none

def popped? : Obs → Option UInt16
  | .popped w _ => some w.val
  | _ => none

/-- The word that a completed frame leaves in `rx_fifo`. -/
def stored? : Obs → Option UInt16
  | .ended f false => some (f.dataBuffer &&& frameMask f.bitsPerFrame)
  | _ => none

end Obs

variable {s s' : Spi} {op : Op} {o os : List Obs}

theorem toNat_and_frameMask (x : UInt16) (bits : Nat) : (x &&& frameMask bits).toNat = x.toNat % 2 ^ bits := by
  have hx : x.toNat < 2 ^ 16 := x.toNat_lt
  unfold frameMask
  split
  · rename_i h
    subst h
    rw [UInt16.toNat_and, Nat.mod_eq_of_lt hx]
    exact (Nat.and_two_pow_sub_one_eq_mod x.toNat 16).trans (Nat.mod_eq_of_lt hx)
  · rw [UInt16.toNat_and, UInt16.toNat_ofNat', Nat.one_shiftLeft]
    refine Nat.eq_of_testBit_eq ?_
    intro i
    rw [Nat.testBit_and, Nat.testBit_mod_two_pow, Nat.testBit_two_pow_sub_one, Nat.testBit_mod_two_pow]
    by_cases hi : i < 16
    · simp only [hi, decide_true, Bool.true_and, Bool.and_comm]
    · rw [Nat.testBit_lt_two_pow (hx.trans_le (Nat.pow_le_pow_right (by decide) (Nat.le_of_not_lt hi))),
        Bool.false_and, Bool.and_false]

theorem and_frameMask (x : UInt16) (bits : Nat) : x &&& frameMask bits = UInt16.ofNat (x.toNat % 2 ^ bits) := by
  rw [← toNat_and_frameMask, UInt16.ofNat_toNat]

/-! ### One step -/

theorem filterMap_warnings {β : Type*} {f : Obs → Option β} (hf : ∀ text, f (.warning text) = none)
    (ho : ∀ e ∈ o, ∃ text, e = .warning text) : o.filterMap f = [] := by
  rw [List.filterMap_eq_nil_iff]
  intro e he
  obtain ⟨text, rfl⟩ := ho e he
  exact hf text

theorem Access.filterMap_frames {β : Type*} {f : Obs → Option β} (h : Access s s' o)
    (hw : ∀ text, f (.warning text) = none) (ha : ∀ w, f (.accepted w) = none)
    (hp : ∀ w data, f (.popped w data) = none) : o.filterMap f = [] := by
  cases h with
  | other rx tx ho => exact filterMap_warnings hw ho
  | accept v rx tx => rw [List.filterMap_cons, ha]; rfl
  | pop w data rx tx => rw [List.filterMap_cons, hp]; rfl

/-- At start-up, before the first delta cycle, nothing is there to drain. -/
def Startup (s : Spi) : Prop :=
  s.handleResetReady = true → s.rxFifo.numReadable = 0 ∧ s.txFifo.numReadable = 0

theorem DataStep.numReadable (h : DataStep s s' o) : s.handleResetReady = false ∨
    s'.rxFifo.numReadable = s.rxFifo.numReadable ∧ s'.txFifo.numReadable = s.txFifo.numReadable := by
  cases h with
  | access same h =>
    refine .inr ?_
    cases h with
    | other rx tx => rw [rx, tx]; exact ⟨rfl, rfl⟩
    | accept v rx tx => rw [rx]; exact ⟨rfl, (ScFifo.nbWrite_eq_some tx).2.1⟩
    | pop w data rx tx => rw [tx]; exact ⟨(ScFifo.nbRead_eq_some rx).2.1, rfl⟩
  | quiet t rx tx | sleep _ t rx tx | reply _ _ _ _ _ t rx tx | wake _ _ _ t rx tx | drop _ _ t _ _ rx tx =>
    rw [rx, tx]
    exact .inr ⟨rfl, rfl⟩
  | hand w _ t rx tx => rw [rx]; exact .inr ⟨rfl, (ScFifo.nbRead_eq_some tx).2.1⟩
  | store f _ t rx tx => rw [tx]; exact .inr ⟨(ScFifo.nbWrite_eq_some rx).2.1, rfl⟩
  | reset ready t rx tx =>
    rw [rx, tx]
    exact .inr ⟨(ScFifo.drainBy_spec _ _).2.1, (ScFifo.drainBy_spec _ _).2.1⟩
  | delta idle => exact .inl idle.2.2.2

theorem handleResetReady_of_step (h : machine s op = some (s', o)) (hop : op ≠ .resetNeg)
    (hr : s'.handleResetReady = true) : s.handleResetReady = true := by
  cases machine_move h with
  | bus t d h => rwa [← h.access.1.handleResetReady]
  | resetNeg => exact absurd rfl hop
  | handleReset ready => exact ready
  | reply | sleep | hand | store | drop | updateIntr | updateStatusReg | delta | advance | wake => exact hr

theorem Startup.step (h : machine s op = some (s', o)) (hop : op ≠ .resetNeg) (hs : s.Startup) :
    s'.Startup := by
  intro hr
  have hr' := handleResetReady_of_step h hop hr
  rcases (machine_dataStep h).numReadable with hf | ⟨hrx, htx⟩
  · rw [hr'] at hf
    cases hf
  · rw [hrx, htx]
    exact hs hr'

theorem drain_contents {f : ScFifo Word fifoSize} (h : f.numReadable = 0) : f.drain.contents = f.contents := by
  rw [f.drain_spec.1, ScFifo.numAvailable, h, Nat.zero_sub, List.drop_zero]

def words (f : ScFifo Word fifoSize) : List UInt16 := f.contents.map Word.val

theorem words_nbWrite {f f' : ScFifo Word fifoSize} {w : Word} (h : f.nbWrite w = some f') :
    words f' = words f ++ [w.val] := by
  rw [words, (ScFifo.nbWrite_eq_some h).1, List.map_append]
  rfl

theorem words_nbRead {f f' : ScFifo Word fifoSize} {w : Word} (h : f.nbRead = some (w, f')) :
    words f = w.val :: words f' := by
  rw [words, (ScFifo.nbRead_eq_some h).1]
  rfl

theorem words_drain {f : ScFifo Word fifoSize} (h : f.numReadable = 0) : words f.drain = words f := by
  rw [words, drain_contents h, words]

namespace DataStep

/-- The transmit side: in at a write of DR, out at the hand-over. -/
theorem tx (h : DataStep s s' o) (hs : s.Startup) : words s.txFifo ++ o.filterMap Obs.accepted? =
    o.filterMap (fun e => e.handed?.map Prod.fst) ++ words s'.txFifo := by
  cases h with
  | access same h =>
    cases h with
    | other rx tx ho =>
      rw [filterMap_warnings (fun _ => rfl) ho, filterMap_warnings (fun _ => rfl) ho, tx, List.append_nil,
        List.nil_append]
    | accept v rx tx => rw [words_nbWrite tx]; rfl
    | pop w data rx tx => rw [tx]; exact List.append_nil _
  | hand w _ t rx tx => rw [words_nbRead tx]; exact List.append_nil _
  | reset ready t rx tx => rw [tx, words_drain (hs ready).2]; exact List.append_nil _
  | delta idle t rx tx => rw [tx]; exact List.append_nil _
  | quiet t rx tx | sleep _ t rx tx | reply _ _ _ _ _ t rx tx | wake _ _ _ t rx tx | drop _ _ t _ _ rx tx
  | store _ _ t rx tx =>
    rw [tx]
    exact List.append_nil _

/-- The receive side: in at the end of a frame, out at a read of DR. -/
theorem rx (h : DataStep s s' o) (hs : s.Startup) : words s.rxFifo ++ o.filterMap Obs.stored? =
    o.filterMap Obs.popped? ++ words s'.rxFifo := by
  cases h with
  | access same h =>
    cases h with
    | other rx tx ho =>
      rw [filterMap_warnings (fun _ => rfl) ho, filterMap_warnings (fun _ => rfl) ho, rx, List.append_nil,
        List.nil_append]
    | accept v rx tx => rw [rx]; exact List.append_nil _
    | pop w data rx tx => rw [words_nbRead rx]; exact List.append_nil _
  | store f _ t rx tx => rw [words_nbWrite rx]; rfl
  | reset ready t rx tx => rw [rx, words_drain (hs ready).1]; exact List.append_nil _
  | delta idle t rx tx => rw [rx]; exact List.append_nil _
  | quiet t rx tx | sleep _ t rx tx | reply _ _ _ _ _ t rx tx | wake _ _ _ t rx tx | drop _ _ t _ _ rx tx
  | hand _ _ t rx tx =>
    rw [rx]
    exact List.append_nil _

theorem inFlight_delta (t : Transmit) (b : Bool) (now : Nat) : (t.delta b now).inFlight = t.inFlight ∧
    (t.delta b now).answered = t.answered := by
  unfold Transmit.delta
  split
  · split <;> exact ⟨rfl, rfl⟩
  · split <;> exact ⟨rfl, rfl⟩
  · exact ⟨rfl, rfl⟩
  · exact ⟨rfl, rfl⟩

/-- The word sizes: a frame begins at the hand-over and ends with the size it began with. -/
theorem bits (h : DataStep s s' o) : s.transmit.inFlight.map Frame.bitsPerFrame ++
    o.filterMap (fun e => e.handed?.map Prod.snd) =
      o.filterMap (fun e => e.ended?.map fun f => f.1.bitsPerFrame) ++
        s'.transmit.inFlight.map Frame.bitsPerFrame := by
  cases h with
  | access same h =>
    rw [h.filterMap_frames (fun _ => rfl) (fun _ => rfl) fun _ _ => rfl,
      h.filterMap_frames (fun _ => rfl) (fun _ => rfl) fun _ _ => rfl, same.transmit, List.append_nil,
      List.nil_append]
  | quiet t | reset _ t => rw [t]; exact List.append_nil _
  | sleep head t => rcases head with h | h <;> rw [h, t] <;> rfl
  | hand w head t => rcases head with h | h <;> rw [h, t] <;> rfl
  | reply f _ _ r h t | wake f _ h t | store f h t | drop f h t => rw [h, t]; rfl
  | delta idle t => rw [t, (inFlight_delta _ _ _).1]; exact List.append_nil _

/-- The replies: in at the return of the peripheral, out at the end of the frame. -/
theorem replies (h : DataStep s s' o) : s.transmit.answered.map Frame.dataBuffer ++
    o.filterMap Obs.replied? =
      o.filterMap (fun e => e.ended?.map fun f => f.1.dataBuffer) ++
        s'.transmit.answered.map Frame.dataBuffer := by
  cases h with
  | access same h =>
    rw [h.filterMap_frames (fun _ => rfl) (fun _ => rfl) fun _ _ => rfl,
      h.filterMap_frames (fun _ => rfl) (fun _ => rfl) fun _ _ => rfl, same.transmit, List.append_nil,
      List.nil_append]
  | quiet t | reset _ t => rw [t]; exact List.append_nil _
  | sleep head t => rcases head with h | h <;> rw [h, t] <;> rfl
  | hand w head t => rcases head with h | h <;> rw [h, t] <;> rfl
  | reply f _ _ r h t | wake f _ h t | store f h t | drop f h t => rw [h, t]; rfl
  | delta idle t => rw [t, (inFlight_delta _ _ _).2]; exact List.append_nil _

end DataStep

/-- Whether a frame finds `rx_fifo` full decides whether its word is dropped, and a drop raises RIS bit 0. -/
theorem ended_of_step (h : machine s op = some (s', o)) {f : Frame} {full : Bool} (he : .ended f full ∈ o) :
    (full = true ↔ s.rxFifo.numFree = 0) ∧ (full = true → s'.reg.ris.toNat.testBit 0 = true) := by
  refine ⟨((ended_iff h).1 he).2.2, ?_⟩
  rintro rfl
  obtain ⟨-, -, ris⟩ : Effect s s' (.ended f true) := (machine_dataStep h).effect he
  rw [ris, UInt16.toNat_or, Nat.testBit_or]
  exact Bool.or_true _

theorem bitsPerFrame_eq (cr0 : UInt16) : bitsPerFrame cr0 = cr0.toNat % 16 + 1 := by
  rw [bitsPerFrame, UInt16.toNat_and]
  exact congrArg (· + 1) (Nat.and_two_pow_sub_one_eq_mod _ 4)

/-! ### A run -/

def accepted (os : List Obs) : List UInt16 := os.filterMap Obs.accepted?

/-- The words handed to the peripheral, each with the word size of its frame. -/
def handed (os : List Obs) : List (UInt16 × Nat) := os.filterMap Obs.handed?

def replied (os : List Obs) : List UInt16 := os.filterMap Obs.replied?

/-- The completed frames, each with whether it found `rx_fifo` full. -/
def ended (os : List Obs) : List (Frame × Bool) := os.filterMap Obs.ended?

def popped (os : List Obs) : List UInt16 := os.filterMap Obs.popped?

theorem filterMap_stored (os : List Obs) : os.filterMap Obs.stored? =
    ((ended os).filter fun e => !e.2).map fun e =>
      UInt16.ofNat (e.1.dataBuffer.toNat % 2 ^ e.1.bitsPerFrame) := by
  induction os with
  | nil => rfl
  | cons e os ih =>
    cases e with
    | ended f full =>
      cases full with
      | false => exact congrArg₂ List.cons (and_frameMask _ _) ih
      | true => exact ih
    | accepted | handed | replied | popped | warning => exact ih

theorem filterMap_map_handed {β : Type*} (g : UInt16 × Nat → β) (os : List Obs) :
    os.filterMap (fun e => e.handed?.map g) = (handed os).map g := List.map_filterMap.symm

theorem filterMap_map_ended {β : Type*} (g : Frame × Bool → β) (os : List Obs) :
    os.filterMap (fun e => e.ended?.map g) = (ended os).map g := List.map_filterMap.symm

theorem getElem?_of_map_append {α β : Type*} {l : List α} {g : α → β} {r l' : List β} {k : Nat} {a : α}
    (h : l' = l.map g ++ r) (hk : l[k]? = some a) : l'[k]? = some (g a) := by
  have hlt : k < (l.map g).length := (List.length_map g).symm ▸ (List.getElem?_eq_some_iff.1 hk).1
  rw [h, List.getElem?_append_left hlt, List.getElem?_map, hk]
  rfl

/-- The word sizes and the replies of the completed frames and of the one in flight. -/
theorem frames_conserved {reg : SpiRegs} {is : List Op} (h : Run machine (powerUp reg) is os s) :
    (handed os).map Prod.snd = (ended os).map (fun e => e.1.bitsPerFrame) ++
      s.transmit.inFlight.map Frame.bitsPerFrame ∧
    replied os = (ended os).map (fun e => e.1.dataBuffer) ++ s.transmit.answered.map Frame.dataBuffer := by
  have hbits := h.conserve (fun _ => True) (fun _ _ => trivial) (fun _ => True) trivial (fun _ _ _ _ _ _ _ => trivial)
    (fun a => a.transmit.inFlight.map Frame.bitsPerFrame) _ _ fun _ _ _ _ _ h _ => (machine_dataStep h).bits
  have hrep := h.conserve (fun _ => True) (fun _ _ => trivial) (fun _ => True) trivial (fun _ _ _ _ _ _ _ => trivial)
    (fun a => a.transmit.answered.map Frame.dataBuffer) _ _ fun _ _ _ _ _ h _ => (machine_dataStep h).replies
  rw [filterMap_map_handed, filterMap_map_ended] at hbits
  rw [filterMap_map_ended] at hrep
  exact ⟨hbits, hrep⟩

/-- The words of the two FIFOs. -/
theorem words_conserved {reg : SpiRegs} {is : List Op} (h : Run machine (powerUp reg) is os s)
    (hno : .resetNeg ∉ is) :
    accepted os = (handed os).map Prod.fst ++ words s.txFifo ∧
    popped os ++ words s.rxFifo = os.filterMap Obs.stored? := by
  have hP : ∀ i ∈ is, i ≠ .resetNeg := fun i hi heq => hno (heq ▸ hi)
  have h0 : (powerUp reg).Startup := fun _ => ⟨rfl, rfl⟩
  have hI : ∀ a i b o, i ≠ .resetNeg → machine a i = some (b, o) → a.Startup → b.Startup :=
    fun _ _ _ _ hne h => Startup.step h hne
  have htx := h.conserve _ hP _ h0 hI (fun a => words a.txFifo) _ _
    fun _ _ _ _ _ h hs => (machine_dataStep h).tx hs
  have hrx := h.conserve _ hP _ h0 hI (fun a => words a.rxFifo) _ _
    fun _ _ _ _ _ h hs => (machine_dataStep h).rx hs
  rw [filterMap_map_handed] at htx
  exact ⟨htx, hrx.symm⟩

/-- A completed frame has the size and the reply that came in its turn. -/
theorem frame_of_ended {reg : SpiRegs} {is : List Op} (h : Run machine (powerUp reg) is os s) {k : Nat}
    {f : Frame} {full : Bool} (hk : (ended os)[k]? = some (f, full)) :
    (∃ w, (handed os)[k]? = some (w, f.bitsPerFrame)) ∧ (replied os)[k]? = some f.dataBuffer := by
  obtain ⟨hbits, hrep⟩ := frames_conserved h
  have hmap : ((handed os).map Prod.snd)[k]? = some f.bitsPerFrame :=
    getElem?_of_map_append (g := fun e => e.1.bitsPerFrame) hbits hk
  rw [List.getElem?_map, Option.map_eq_some_iff] at hmap
  rcases hmap with ⟨⟨w, bits⟩, hw, rfl⟩
  exact ⟨⟨w, hw⟩, getElem?_of_map_append (g := fun e => e.1.dataBuffer) hrep hk⟩

theorem length_inFlight_le (t : Transmit) : t.inFlight.length ≤ 1 := by
  unfold Transmit.inFlight
  split <;> simp

end Spi

open Spi

/-- SPI data integrity. In every run without a falling edge of `reset`, the words handed to the peripheral,
followed by the at most 8 words of `tx_fifo`, are the words accepted, in order; and the words popped,
followed by those of `rx_fifo`, are the replies masked to the word size of their frames, less the frames
that completed against a full `rx_fifo`, each of which raised RIS bit 0. The events of the steps are what
happens. -/
theorem spi_data_integrity (reg : SpiRegs) (is : List Op) (os : List Obs) (s : Spi)
    (hrun : Run machine (powerUp reg) is os s) (hno : .resetNeg ∉ is) :
    (accepted os = (handed os).map Prod.fst ++ words s.txFifo ∧ (words s.txFifo).length ≤ 8) ∧
    (∀ (k : Nat) (w : UInt16) (bits : Nat), (handed os)[k]? = some (w, bits) →
      ∃ a : UInt16, (accepted os)[k]? = some a ∧ w.toNat % 2 ^ bits = a.toNat % 2 ^ bits) ∧
    popped os ++ words s.rxFifo = (((ended os).filter fun e => !e.2).map fun e =>
      UInt16.ofNat (e.1.dataBuffer.toNat % 2 ^ e.1.bitsPerFrame)) ∧
    (∀ (k : Nat) (f : Frame) (full : Bool), (ended os)[k]? = some (f, full) →
      (∃ w, (handed os)[k]? = some (w, f.bitsPerFrame)) ∧ (replied os)[k]? = some f.dataBuffer) ∧
    (handed os).length ≤ (ended os).length + 1 ∧
    ∀ op s' o, machine s op = some (s', o) →
      (∀ (w : Word) (bits : Nat), .handed w bits ∈ o → bits = s.reg.cr0.toNat % 16 + 1) ∧
      (∀ (f : Frame) (full : Bool), .ended f full ∈ o →
        (full = true ↔ s.rxFifo.numFree = 0) ∧ (full = true → s'.reg.ris.toNat.testBit 0 = true)) ∧
      EventsMatch ⟨s, op, s', o⟩ := by
  obtain ⟨htx, hrx⟩ := words_conserved hrun hno
  refine ⟨⟨htx, ?_⟩, ?_, ?_, fun _ _ _ => frame_of_ended hrun, ?_, ?_⟩
  · rw [words, List.length_map]
    exact s.txFifo.length_le
  · intro k w bits hk
    exact ⟨w, getElem?_of_map_append htx hk, rfl⟩
  · rw [hrx, filterMap_stored]
  · have hlen := congrArg List.length (frames_conserved hrun).1
    rw [List.length_append, List.length_map, List.length_map, List.length_map] at hlen
    have := length_inFlight_le s.transmit
    omega
  · intro op s' o h
    refine ⟨fun w bits he => ?_, fun f full => ended_of_step h, eventsMatch h⟩
    rw [((handed_iff h).1 he).2.2, bitsPerFrame_eq]

/-- CR0 set to 8-bit words, SSE set, DR written; one frame, then a read of DR. -/
def oneFrame : List Op :=
  [.handleReset, .transmit,
    .transport ⟨.write, 0x00, some [0x07, 0x00], 2, .incomplete, false⟩ 0,
    .transport ⟨.write, 0x04, some [0x02, 0x00], 2, .incomplete, false⟩ 0,
    .transport ⟨.write, 0x08, some [0x34, 0x12], 2, .incomplete, false⟩ 0,
    .delta, .updateIntr, .updateStatusReg, .transmit, .periReturn 0xABCD 0, .delta, .updateStatusReg,
    .transmit, .delta, .transmit,
    .transport ⟨.read, 0x08, some [0, 0], 2, .incomplete, false⟩ 0]

theorem spi_data_integrity_oneFrame : ∃ os s, Run machine (powerUp default) oneFrame os s ∧
    handed os = [(0x1234, 8)] ∧ popped os = [0xCD] ∧
    accepted os = (handed os).map Prod.fst ++ words s.txFifo := by
  have hobs : (exec machine (powerUp default) oneFrame).map (fun r => (handed r.2, popped r.2)) =
      some ([(0x1234, 8)], [0xCD]) := by decide +kernel
  obtain ⟨⟨s, os⟩, hx, hos⟩ := Option.map_eq_some_iff.1 hobs
  obtain ⟨hh, hp⟩ := Prod.mk.inj hos
  have hrun := Run.of_exec hx
  exact ⟨os, s, hrun, hh, hp, (spi_data_integrity _ oneFrame os s hrun (by decide)).1.1⟩

end CdcVp
