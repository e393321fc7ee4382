import CdcVp.SpiData

/-!
# The SPI controller sends what it holds

With SSE set, no reset and no transaction, the controller is left to the peripheral and the kernel. `left` bounds
what they still have to do: a move that `works` takes some of it, and any other move changes nothing but the clock.
Where none is left, every word of `tx_fifo` has been sent.
-/

namespace CdcVp
open Runs

namespace Transmit

/-- The frame being shifted is over by then. -/
def endsBy (time : Nat) : Transmit → Bool
  | .shifting _ wake => wake ≤ time
  | _ => false

/-- What is left of the round and of its notifications. -/
def left : Transmit → Nat
  | .sleeping => 0
  | .ready => 3
  | .settled => 6
  | .settling => 7
  | .shifted _ => 9
  | .shifting _ _ => 10
  | .inPeri _ _ => 11

theorem left_le (t : Transmit) : t.left ≤ 11 := by
  cases t <;> simp [left]

/-- A delta cycle that neither wakes the thread nor ends its wait. -/
theorem delta_eq_self {t : Transmit} {now : Nat} (h : t ≠ .settling) (hend : t.endsBy now = false) :
    t.delta false now = t := by
  cases t with
  | shifting f wake => exact if_neg (of_decide_eq_false hend)
  | settling => exact absurd rfl h
  | ready | sleeping | inPeri | shifted | settled => rfl

theorem left_delta (t : Transmit) (ev : Bool) (now : Nat) :
    ((t.delta ev now).left + if ev = true ∨ t = .settling ∨ t.endsBy now = true then 1 else 0) ≤
      t.left + 4 * ev.toNat := by
  cases t with
  | shifting f wake =>
    by_cases hw : wake ≤ now
    · simp [delta, endsBy, left, hw]
    · cases ev <;> simp [delta, endsBy, left, hw]
  | ready | sleeping | inPeri | shifted | settling | settled => cases ev <;> simp [delta, endsBy, left]

end Transmit

namespace Spi
variable {s s' : Spi} {op : Op} {o os : List Obs} {cr0 : UInt16}

/-- Neither a transaction nor a reset. -/
def Op.isOwn : Op → Bool
  | .transport _ _ | .resetNeg => false
  | _ => true

/-- The move does something: it is not a delta cycle for which nothing waits, nor time that ends no frame. -/
def works (s : Spi) : Op → Bool
  | .delta => !decide s.Settled || s.transmit.endsBy s.now
  | .advance time => s.transmit.endsBy time
  | _ => true

/-- Every word has been sent and nothing is pending. -/
def AllSent (s : Spi) : Prop := s.Settled ∧ s.transmit = .sleeping ∧ s.txFifo.contents = []

/-- A read or a write waits for the update. -/
def stale (f : ScFifo Word fifoSize) : Bool := f.numRead ≠ 0 || f.numWritten ≠ 0

theorem stale_update (f : ScFifo Word fifoSize) : stale f.update = false := rfl

/-- What is left to do. -/
def left (s : Spi) : Nat :=
  12 * s.txFifo.contents.length + s.transmit.left + 4 * s.transmissionEvent.toNat + 2 * s.statusEvent.toNat +
    3 * s.possibleIntrEvent.toNat + s.updateStatusReady.toNat + 2 * s.updateIntrReady.toNat +
    (s.intr != s.intrNext).toNat + (stale s.rxFifo).toNat + (stale s.txFifo).toNat

theorem left_le (s : Spi) : s.left ≤ 12 * s.txFifo.contents.length + 26 := by
  have := s.transmit.left_le
  have := s.transmissionEvent.toNat_le
  have := s.statusEvent.toNat_le
  have := s.possibleIntrEvent.toNat_le
  have := s.updateStatusReady.toNat_le
  have := s.updateIntrReady.toNat_le
  have := (s.intr != s.intrNext).toNat_le
  have := (stale s.rxFifo).toNat_le
  have := (stale s.txFifo).toNat_le
  unfold left
  omega

theorem settled_iff : s.Settled ↔ s.Idle ∧ s.transmit ≠ .settling ∧ s.transmissionEvent = false ∧
    s.statusEvent = false ∧ s.possibleIntrEvent = false ∧ (s.intr != s.intrNext) = false ∧
    stale s.rxFifo = false ∧ stale s.txFifo = false := by
  simp [Settled, stale, and_assoc]

/-- A delta cycle for which nothing waits. -/
theorem deltaCycle_of_settled (h : s.Settled) (hend : s.transmit.endsBy s.now = false) : s.deltaCycle = s := by
  obtain ⟨⟨-, hintr, hstatus, -⟩, hsettling, hte, hse, hpie, hout, hrr, hrw, htr, htw⟩ := h
  unfold deltaCycle
  rw [ScFifo.update_eq_self hrr hrw, ScFifo.update_eq_self htr htw, hte, hse, hpie,
    Transmit.delta_eq_self hsettling hend, ← hout]
  cases s
  simp only at hintr hstatus hte hse hpie hout
  subst hintr hstatus hte hse hpie hout
  rfl

/-! ### A controller left alone -/

/-- What holds of a controller with SSE set that is left alone. -/
structure Enabled (cr0 : UInt16) (s : Spi) : Prop where
  wake : WakeInv s
  sse : s.reg.cr1 &&& 0x2 ≠ 0
  cr0_eq : s.reg.cr0 = cr0
  unreset : s.handleResetReady = false

theorem Enabled.step (h : Move s op s' o) (hop : op.isOwn = true) (hs : Enabled cr0 s) : Enabled cr0 s' := by
  have hwake := hs.wake.step h
  cases h with
  | bus | resetNeg => cases hop
  | handleReset ready => exact absurd (hs.unreset.symm.trans ready) Bool.false_ne_true
  | reply | sleep | hand | store | drop | updateIntr | updateStatusReg | delta | advance | wake =>
    exact ⟨hwake, hs.sse, hs.cr0_eq, hs.unreset⟩

/-! ### One move -/

/-- What a delta cycle leaves to do. -/
theorem left_deltaCycle (s : Spi) : s.deltaCycle.left = 12 * s.txFifo.contents.length +
    (s.transmit.delta s.transmissionEvent s.now).left + s.statusEvent.toNat + 2 * s.possibleIntrEvent.toNat := by
  simp [left, deltaCycle, stale_update]

/-- What a delta cycle that does something finds pending. -/
theorem pending_of_works (hidle : s.Idle) (h : s.works .delta = true) :
    (s.transmissionEvent = true ∨ s.transmit = .settling ∨ s.transmit.endsBy s.now = true) ∨ s.statusEvent = true ∨
      s.possibleIntrEvent = true ∨ (s.intr != s.intrNext) = true ∨ stale s.rxFifo = true ∨
      stale s.txFifo = true := by
  by_contra hno
  simp only [not_or, Bool.not_eq_true] at hno
  obtain ⟨⟨hte, hsettling, hend⟩, hse, hpie, hintr, hrx, htx⟩ := hno
  have hs : s.Settled := settled_iff.2 ⟨hidle, hsettling, hte, hse, hpie, hintr, hrx, htx⟩
  rw [works, decide_eq_true hs, hend] at h
  cases h

theorem left_delta_step (hidle : s.Idle) :
    (s.deltaCycle.left + if s.works .delta = true then 1 else 0) ≤ s.left := by
  have hround := s.transmit.left_delta s.transmissionEvent s.now
  rw [left_deltaCycle]
  unfold left
  split
  · rename_i hw
    rcases pending_of_works hidle hw with h | h | h | h | h | h
    · rw [if_pos h] at hround
      omega
    all_goals
      rw [h]
      simp only [Bool.toNat_true]
      omega
  · omega

/-- A move takes one at least of what is left, if it does something. -/
theorem left_step (h : Move s op s' o) (hop : op.isOwn = true) (hs : Enabled cr0 s) :
    (s'.left + if s.works op = true then 1 else 0) ≤ s.left := by
  cases h with
  | bus | resetNeg => cases hop
  | handleReset ready => exact absurd (hs.unreset.symm.trans ready) Bool.false_ne_true
  | reply f d r delay peri =>
    simp only [left, works, peri, Transmit.left, if_true]
    omega
  | sleep intr head hno =>
    rcases head with ⟨hh, rfl⟩ | ⟨hh, rfl⟩
    all_goals
      simp only [left, works, hh, Transmit.left, if_true, Bool.toNat_true]
      omega
  | hand intr head w tx sse htx =>
    -- the word taken pays for its frame
    have hlen : s.txFifo.contents.length = tx.contents.length + 1 := by
      rw [(ScFifo.nbRead_eq_some htx).1, List.length_cons]
    have hstale := (stale tx).toNat_le
    rcases head with ⟨hh, rfl⟩ | ⟨hh, rfl⟩
    all_goals
      simp only [left, works, hh, hlen, Transmit.left, if_true, Bool.toNat_true]
      omega
  | store f shifted rx hrx =>
    have hstale := (stale rx).toNat_le
    simp only [left, works, shifted, Transmit.left, if_true]
    omega
  | drop f shifted full =>
    simp only [left, works, shifted, Transmit.left, if_true]
    omega
  | updateIntr ready =>
    have hout := (s.intr != s.updateIntr.intrNext).toNat_le
    simp only [left, works, ready, updateIntr, if_true, Bool.toNat_true, Bool.toNat_false] at hout ⊢
    omega
  | updateStatusReg ready =>
    simp only [left, works, ready, updateStatusReg, if_true, Bool.toNat_true, Bool.toNat_false]
    omega
  | delta idle => exact left_delta_step idle
  | advance time settled later hno =>
    have hend : s.transmit.endsBy time = false := by
      cases ht : s.transmit with
      | shifting f wake => exact decide_eq_false (Nat.not_le_of_lt (hno f wake ht))
      | ready | sleeping | inPeri | shifted | settling | settled => rfl
    rw [works, hend, if_neg Bool.false_ne_true]
    exact Nat.le_refl _
  | wake f wake shifting settled later =>
    simp only [left, works, shifting, Transmit.left, Transmit.endsBy, decide_true, Nat.le_refl, if_true]
    omega

/-- A move that does nothing changes nothing but the clock. -/
theorem eq_of_not_works (h : machine s op = some (s', o)) (hop : op.isOwn = true) (hno : s.works op = false) :
    o = [] ∧ s' = { s with now := s'.now } := by
  cases machine_move h with
  | bus | resetNeg => cases hop
  | delta idle =>
    obtain ⟨hsettled, hend⟩ := Bool.or_eq_false_iff.1 hno
    rw [Bool.not_eq_false', decide_eq_true_iff] at hsettled
    rw [deltaCycle_of_settled hsettled hend]
    exact ⟨rfl, rfl⟩
  | advance => exact ⟨rfl, rfl⟩
  | wake f wake shifting =>
    rw [works, shifting] at hno
    exact absurd (Nat.le_refl wake) (of_decide_eq_false hno)
  | reply | sleep | hand | store | drop | updateIntr | updateStatusReg | handleReset => cases hno

/-! ### Where nothing is left -/

/-- What `transmit` waits for in a settled state of a controller left alone. -/
theorem Enabled.waits (hs : Enabled cr0 s) (h : s.Settled) :
    s.AllSent ∨ s.transmit.inFlight ≠ [] ∧ ((∃ f d, s.transmit = .inPeri f d) ∨
      ∃ f wake, s.transmit = .shifting f wake) := by
  obtain ⟨⟨hrun, -⟩, hsettling, hte, -, -, -, -, -, -, hwritten⟩ := id h
  cases ht : s.transmit with
  | sleeping =>
    refine .inl ⟨h, ht, ?_⟩
    have hav := (hs.wake.asleep ht hte).resolve_left hs.sse
    exact List.eq_nil_of_length_eq_zero ((ScFifo.length_eq_numAvailable hwritten).trans hav)
  | inPeri f d => exact .inr ⟨List.cons_ne_nil _ _, .inl ⟨f, d, rfl⟩⟩
  | shifting f wake => exact .inr ⟨List.cons_ne_nil _ _, .inr ⟨f, wake, rfl⟩⟩
  | settling => exact absurd ht hsettling
  | ready | shifted | settled =>
    rw [ht] at hrun
    cases hrun

theorem not_runnable (h : machine s .transmit = none) : s.transmit.runnable = false := by
  cases ht : s.transmit with
  | ready | shifted | settled => simp [machine, ht] at h
  | sleeping | inPeri | shifting | settling => rfl

/-- Nothing is left to do iff every word has been sent. -/
theorem stuck_iff (hs : Enabled cr0 s) :
    (∀ op, op.isOwn = true → s.works op = true → machine s op = none) ↔ s.AllSent := by
  constructor
  · intro hstuck
    have hno (op : Op) {r : Spi × List Obs} (hop : op.isOwn = true) (hw : s.works op = true)
        (hr : machine s op = some r) : False := Option.some_ne_none r (hr.symm.trans (hstuck op hop hw))
    have hintr : s.updateIntrReady = false :=
      Bool.eq_false_iff.2 fun h => hno .updateIntr rfl rfl (if_pos h)
    have hstatus : s.updateStatusReady = false :=
      Bool.eq_false_iff.2 fun h => hno .updateStatusReg rfl rfl (if_pos h)
    have hidle : s.Idle := ⟨not_runnable (hstuck .transmit rfl rfl), hintr, hstatus, hs.unreset⟩
    have hdelta : s.works .delta = false := Bool.eq_false_iff.2 fun h => hno .delta rfl h (if_pos hidle)
    obtain ⟨hsettled, hend⟩ := Bool.or_eq_false_iff.1 hdelta
    rw [Bool.not_eq_false', decide_eq_true_iff] at hsettled
    rcases hs.waits hsettled with hd | ⟨-, ⟨f, d, ht⟩ | ⟨f, wake, ht⟩⟩
    · exact hd
    · exact absurd (hstuck (.periReturn 0 0) rfl rfl) (by simp [machine, ht])
    · rw [ht] at hend
      have hlt : s.now < wake := Nat.lt_of_not_le (of_decide_eq_false hend)
      refine absurd (hstuck (.advance wake) rfl ?_) ?_
      · rw [works, ht]
        exact decide_eq_true (Nat.le_refl wake)
      · simp [machine, ht, hsettled, hlt]
  · rintro ⟨hsettled, ht, -⟩ op hop hw
    have hidle := hsettled.1
    cases op with
    | transport | resetNeg => cases hop
    | periReturn | transmit => simp only [machine, ht]
    | updateIntr => exact if_neg (Bool.eq_false_iff.1 hidle.2.1)
    | updateStatusReg => exact if_neg (Bool.eq_false_iff.1 hidle.2.2.1)
    | handleReset => exact if_neg (Bool.eq_false_iff.1 hidle.2.2.2)
    | delta =>
      rw [works, decide_eq_true hsettled, ht] at hw
      cases hw
    | advance time =>
      rw [works, ht] at hw
      cases hw

/-! ### What is sent -/

/-- The words of `tx_fifo`, with the word size they are to be sent with. -/
def toSend (s : Spi) : List (UInt16 × Nat) :=
  s.txFifo.contents.map fun w => (w.val, bitsPerFrame s.reg.cr0)

theorem toSend_step (h : Move s op s' o) (hop : op.isOwn = true) (hs : Enabled cr0 s) :
    s.toSend = o.filterMap Obs.handed? ++ s'.toSend := by
  cases h with
  | bus | resetNeg => cases hop
  | handleReset ready => exact absurd (hs.unreset.symm.trans ready) Bool.false_ne_true
  | hand intr head w tx sse htx =>
    rw [toSend, (ScFifo.nbRead_eq_some htx).1, List.map_cons]
    rfl
  | reply | sleep | store | drop | updateIntr | updateStatusReg | delta | advance | wake => rfl

variable {is : List Op} {tr : List (Step Spi Op Obs)}

theorem Enabled.run_left (hs : Enabled cr0 s) (h : Run (traced machine) s is tr s')
    (hown : ∀ op ∈ is, op.isOwn = true) :
    Enabled cr0 s' ∧ tr.countP (fun e => e.pre.works e.input) + s'.left ≤ s.left :=
  h.countP_le _ hown (Enabled cr0) hs left _ fun _ _ _ _ hop hi ha =>
    ⟨ha.step (machine_move hi) hop, left_step (machine_move hi) hop ha⟩

theorem Enabled.run_toSend (hs : Enabled cr0 s) (h : Run machine s is os s') (hown : ∀ op ∈ is, op.isOwn = true) :
    s.toSend = handed os ++ s'.toSend := by
  have hq := h.conserve _ hown (Enabled cr0) hs (fun _ _ _ _ hop hi ha => ha.step (machine_move hi) hop) toSend
    (fun _ => none) Obs.handed? fun _ _ _ _ hop hi ha => by
      rw [List.filterMap_none, List.append_nil]
      exact toSend_step (machine_move hi) hop ha
  rwa [List.filterMap_none, List.append_nil] at hq

/-- The frames begun and the frames ended. -/
theorem run_inFlight (h : Run machine s is os s') :
    s.transmit.inFlight.length + (handed os).length = (ended os).length + s'.transmit.inFlight.length := by
  have hbits := h.conserve (fun _ => True) (fun _ _ => trivial) (fun _ => True) trivial
    (fun _ _ _ _ _ _ _ => trivial) (fun a => a.transmit.inFlight.map Frame.bitsPerFrame) _ _
    fun _ _ _ _ _ hi _ => (machine_dataStep hi).bits
  rw [filterMap_map_handed, filterMap_map_ended] at hbits
  have hlen := congrArg List.length hbits
  simpa only [List.length_append, List.length_map] using hlen

end Spi

open Spi

/-- An SPI controller with SSE set and no reset due sends what it holds, when nothing but the peripheral and the
kernel acts, in any order. Of the moves at most 12 for each word of `tx_fifo` and 26 more do anything; the others change
nothing but the clock. There is one left that does something unless every word has been sent and nothing is pending,
and time passes only while a frame is in flight, or after that. The words go out in order, each once, in the word size
of CR0, and every frame that began ends but the one in flight. -/
theorem spi_drains (reg : SpiRegs) (is₀ : List Op) (os₀ : List Obs) (s : Spi) (is : List Op)
    (tr : List (Step Spi Op Obs)) (s' : Spi) (hrun₀ : Run machine (powerUp reg) is₀ os₀ s)
    (hsse : s.reg.cr1 &&& 0x2 ≠ 0) (hreset : s.handleResetReady = false)
    (hrun : Run (traced machine) s is tr s') (hown : ∀ op ∈ is, op.isOwn = true) :
    tr.countP (fun e => e.pre.works e.input) ≤ 12 * s.txFifo.contents.length + 26 ∧
    (∀ e ∈ tr, e.pre.works e.input = false → e.obs = [] ∧ e.post = { e.pre with now := e.post.now }) ∧
    ((∀ op, op.isOwn = true → s'.works op = true → machine s' op = none) ↔ s'.AllSent) ∧
    (∀ time, machine s' (.advance time) ≠ none → s'.AllSent ∨ s'.transmit.inFlight ≠ []) ∧
    s.txFifo.contents.map (fun w => (w.val, bitsPerFrame s.reg.cr0)) = handed (tr.flatMap Step.obs) ++
      s'.txFifo.contents.map (fun w => (w.val, bitsPerFrame s.reg.cr0)) ∧
    s.transmit.inFlight.length + (handed (tr.flatMap Step.obs)).length =
      (ended (tr.flatMap Step.obs)).length + s'.transmit.inFlight.length := by
  have hs : Enabled s.reg.cr0 s := ⟨WakeInv.of_run hrun₀, hsse, rfl, hreset⟩
  obtain ⟨hs', hcount⟩ := hs.run_left hrun hown
  refine ⟨?_, ?_, stuck_iff hs', ?_, ?_, run_inFlight hrun.of_traced⟩
  · have := s.left_le
    omega
  · intro e he hno
    obtain ⟨tr₁, tr₂, rfl⟩ := List.append_of_mem he
    obtain ⟨is₁, is₂, rfl, -, hstep, -⟩ := hrun.split
    exact eq_of_not_works hstep (hown _ (by simp)) hno
  · intro time hadv
    obtain ⟨⟨a, o⟩, hm⟩ := Option.ne_none_iff_exists'.1 hadv
    have hsettled : s'.Settled := by
      cases machine_move hm with
      | advance _ settled | wake _ _ _ settled => exact settled
    exact (hs'.waits hsettled).imp_right And.left
  · have hsend := hs.run_toSend hrun.of_traced hown
    rwa [toSend, toSend, hs'.cr0_eq] at hsend

/-- SSE set and two words written in the first delta cycle. -/
def twoQueued : List Op :=
  [.handleReset, .transmit, .transport (spiWrite 0x04 0x02) 0, .transport (spiWrite 0x08 0x01) 0,
    .transport (spiWrite 0x08 0x02) 0]

/-- Both frames, and time after them. -/
def twoSent : List Op :=
  [.delta, .updateIntr, .updateStatusReg, .transmit, .periReturn 0x1 20000, .delta, .updateStatusReg, .advance 20000,
    .transmit, .delta, .transmit, .delta, .updateIntr, .updateStatusReg, .periReturn 0x0 0, .delta, .transmit, .delta,
    .transmit, .delta, .updateIntr, .updateStatusReg, .advance 30000]

theorem spi_drains_twoSent : ∃ os₀ s tr s', Run machine (powerUp default) twoQueued os₀ s ∧
    Run (traced machine) s twoSent tr s' ∧ tr.countP (fun e => e.pre.works e.input) ≤ 12 * 2 + 26 ∧
    handed (tr.flatMap Step.obs) = [(1, 1), (2, 1)] ∧ (ended (tr.flatMap Step.obs)).length = 2 := by
  have hx : (exec machine (powerUp default) twoQueued).bind (fun r => (exec (traced machine) r.1 twoSent).map
      fun q => ((r.1.reg.cr1, r.1.reg.cr0, r.1.handleResetReady), (r.1.transmit, r.1.txFifo.contents),
        q.1.transmit, q.1.txFifo.contents)) =
        some ((2, 0, false), (.sleeping, [⟨1, 1⟩, ⟨2, 1⟩]), .sleeping, []) := by decide +kernel
  obtain ⟨⟨s, os₀⟩, h₀, hx⟩ := Option.bind_eq_some_iff.1 hx
  obtain ⟨⟨s', tr⟩, h₁, hx⟩ := Option.map_eq_some_iff.1 hx
  simp only [Prod.mk.injEq] at hx
  obtain ⟨⟨hcr1, hcr0, hreset⟩, ⟨ht, htx⟩, ht', htx'⟩ := hx
  have hrun := Run.of_exec h₁
  have hsse : s.reg.cr1 &&& 0x2 ≠ 0 := by rw [hcr1]; decide
  obtain ⟨hcount, -, -, -, hsend, hframes⟩ :=
    spi_drains _ twoQueued os₀ s twoSent tr s' (Run.of_exec h₀) hsse hreset hrun (by decide)
  rw [htx] at hcount
  rw [htx, htx', hcr0, List.map_nil, List.append_nil] at hsend
  rw [ht, ht', ← hsend] at hframes
  exact ⟨os₀, s, tr, s', Run.of_exec h₀, hrun, hcount, hsend.symm, by simpa [Transmit.inFlight] using hframes.symm⟩

end CdcVp
