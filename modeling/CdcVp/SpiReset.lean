import CdcVp.SpiData

/-!
# What an SPI reset isolates

A reset drains the words that the last update phase made available and leaves the rest: words written since,
and the frame `transmit` holds in its locals. `Tagged` is the invariant of a state all of whose words and
frames have epochs in a given set; `Clean` says that a reset finds nothing it would leave. From any other
state a run is constructed in which a word or a reply of before the reset comes through.
-/

namespace CdcVp
open FlatStore LittleEndian Runs

namespace Spi

/-- The epoch of the word or the reply that goes to the peripheral, into `rx_fifo` or out to a read of DR. -/
def Obs.carried? : Obs → Option Nat
  | .handed w _ => some w.epoch
  | .ended f false => some f.epoch
  | .popped w _ => some w.epoch
  | _ => none

/-- Something from before epoch `e` comes through. -/
def Obs.FromBefore (e : Nat) (x : Obs) : Prop := ∃ n, x.carried? = some n ∧ n < e

/-- A reset finds no word of the current delta cycle, and no frame in flight but one that is about to be
dropped. -/
structure Clean (s : Spi) : Prop where
  tx : s.txFifo.numWritten = 0
  rx : s.rxFifo.numWritten = 0
  frame : ∀ f ∈ s.transmit.inFlight, s.transmit = .shifted f ∧ s.rxFifo.numFree = 0

/-- The epochs of what the controller holds; a frame about to be dropped does not count. -/
structure Tagged (P : Nat → Prop) (s : Spi) : Prop where
  tx : ∀ w ∈ s.txFifo.contents, P w.epoch
  rx : ∀ w ∈ s.rxFifo.contents, P w.epoch
  frame : ∀ f ∈ s.transmit.inFlight, P f.epoch ∨ s.transmit = .shifted f ∧ s.rxFifo.numFree = 0

variable {P Q : Nat → Prop} {s s' : Spi} {op : Op} {o : List Obs} {e : Nat}

theorem DataStep.epoch_le (h : DataStep s s' o) : s.epoch ≤ s'.epoch := by
  cases h with
  | access same => exact same.epoch.ge
  | quiet _ _ _ he | sleep _ _ _ _ he | hand _ _ _ _ _ he | reply _ _ _ _ _ _ _ _ he | wake _ _ _ _ _ _ he
  | store _ _ _ _ _ he | drop _ _ _ _ _ _ _ he | delta _ _ _ _ he => exact he.ge
  | reset _ _ _ _ he => exact he ▸ Nat.le_succ _

namespace Tagged

theorem mono (h : Tagged P s) (hPQ : ∀ n, P n → Q n) : Tagged Q s :=
  ⟨fun w hw => hPQ _ (h.tx w hw), fun w hw => hPQ _ (h.rx w hw), fun f hf => (h.frame f hf).imp_left (hPQ _)⟩

theorem inPeri {f : Frame} {d : Nat} (h : Tagged P s) (ht : s.transmit = .inPeri f d) : P f.epoch := by
  refine (h.frame f (by rw [ht]; exact List.mem_singleton_self f)).resolve_right ?_
  intro hs
  rw [ht] at hs
  cases hs.1

theorem shifting {f : Frame} {wake : Nat} (h : Tagged P s) (ht : s.transmit = .shifting f wake) :
    P f.epoch := by
  refine (h.frame f (by rw [ht]; exact List.mem_singleton_self f)).resolve_right ?_
  intro hs
  rw [ht] at hs
  cases hs.1

theorem shifted {f : Frame} (h : Tagged P s) (ht : s.transmit = .shifted f) (hfree : s.rxFifo.numFree ≠ 0) :
    P f.epoch :=
  (h.frame f (by rw [ht]; exact List.mem_singleton_self f)).resolve_right fun hs => hfree hs.2

theorem frame_nil (h : s.transmit.inFlight = []) :
    ∀ f ∈ s.transmit.inFlight, P f.epoch ∨ s.transmit = .shifted f ∧ s.rxFifo.numFree = 0 := by
  rw [h]
  exact List.forall_mem_nil _

theorem frame_single {f : Frame} (h : s.transmit.inFlight = [f]) (hf : P f.epoch) :
    ∀ g ∈ s.transmit.inFlight, P g.epoch ∨ s.transmit = .shifted g ∧ s.rxFifo.numFree = 0 := by
  rw [h]
  intro g hg
  rw [List.mem_singleton.1 hg]
  exact .inl hf

theorem start (reg : SpiRegs) : Tagged P (powerUp reg) :=
  ⟨List.forall_mem_nil _, List.forall_mem_nil _, List.forall_mem_nil _⟩

theorem frame_congr (h : Tagged P s) (htr : s'.transmit = s.transmit)
    (hn : s'.rxFifo.numFree = s.rxFifo.numFree) :
    ∀ f ∈ s'.transmit.inFlight, P f.epoch ∨ s'.transmit = .shifted f ∧ s'.rxFifo.numFree = 0 := by
  rw [htr, hn]
  exact h.frame

theorem nbWrite {f f' : ScFifo Word fifoSize} {w : Word} (hw : f.nbWrite w = some f') (hP : P w.epoch)
    (h : ∀ v ∈ f.contents, P v.epoch) : ∀ v ∈ f'.contents, P v.epoch := by
  intro v hv
  rw [(ScFifo.nbWrite_eq_some hw).1] at hv
  rcases List.mem_append.1 hv with hv | hv
  · exact h v hv
  · rwa [List.mem_singleton.1 hv]

theorem nbRead {f f' : ScFifo Word fifoSize} {w : Word} (hr : f.nbRead = some (w, f'))
    (h : ∀ v ∈ f.contents, P v.epoch) : P w.epoch ∧ ∀ v ∈ f'.contents, P v.epoch := by
  rw [(ScFifo.nbRead_eq_some hr).1] at h
  exact ⟨h w List.mem_cons_self, fun v hv => h v (List.mem_cons_of_mem _ hv)⟩

theorem drain {f : ScFifo Word fifoSize} (h : ∀ v ∈ f.contents, P v.epoch) :
    ∀ v ∈ f.drain.contents, P v.epoch := by
  intro v hv
  rw [f.drain_spec.1] at hv
  exact h v (List.mem_of_mem_drop hv)

/-- Where the current epoch is in the set, so are those of all that a step leaves or lets through. -/
theorem step (h : DataStep s s' o) (hP : P s.epoch) (ht : Tagged P s) :
    Tagged P s' ∧ ∀ x ∈ o, ∀ n, x.carried? = some n → P n := by
  have silent : ∀ x ∈ ([] : List Obs), ∀ n, x.carried? = some n → P n := List.forall_mem_nil _
  have single : ∀ y : Obs, (∀ n, y.carried? = some n → P n) → ∀ x ∈ [y], ∀ n, x.carried? = some n → P n :=
    fun y hy x hx => List.mem_singleton.1 hx ▸ hy
  cases h with
  | access same h =>
    cases h with
    | other rx tx ho =>
      refine ⟨⟨tx ▸ ht.tx, rx ▸ ht.rx, ht.frame_congr same.transmit (by rw [rx])⟩, ?_⟩
      intro x hx n hn
      obtain ⟨text, rfl⟩ := ho x hx
      cases hn
    | accept v rx tx =>
      exact ⟨⟨nbWrite tx hP ht.tx, rx ▸ ht.rx, ht.frame_congr same.transmit (by rw [rx])⟩,
        single _ fun n hn => by cases hn⟩
    | pop w data rx tx =>
      obtain ⟨hw, hrest⟩ := nbRead rx ht.rx
      refine ⟨⟨tx ▸ ht.tx, hrest, ht.frame_congr same.transmit (ScFifo.numFree_of_nbRead rx)⟩,
        single _ fun n hn => ?_⟩
      rwa [← Option.some.inj hn]
  | quiet t rx tx => exact ⟨⟨tx ▸ ht.tx, rx ▸ ht.rx, ht.frame_congr t (by rw [rx])⟩, silent⟩
  | sleep head t rx tx => exact ⟨⟨tx ▸ ht.tx, rx ▸ ht.rx, frame_nil (by rw [t]; rfl)⟩, silent⟩
  | hand w head t rx tx =>
    obtain ⟨hw, hrest⟩ := nbRead tx ht.tx
    refine ⟨⟨hrest, rx ▸ ht.rx, frame_single (by rw [t]; rfl) hP⟩, single _ ?_⟩
    intro n hn
    rwa [← Option.some.inj hn]
  | reply f d wake r peri t rx tx =>
    have hf := ht.inPeri peri
    exact ⟨⟨tx ▸ ht.tx, rx ▸ ht.rx, frame_single (f := { f with dataBuffer := r }) (by rw [t]; rfl) hf⟩,
      single _ fun n hn => by cases hn⟩
  | wake f wk hs t rx tx =>
    have hf := ht.shifting hs
    exact ⟨⟨tx ▸ ht.tx, rx ▸ ht.rx, frame_single (by rw [t]; rfl) hf⟩, silent⟩
  | store f hs t rx tx =>
    -- the frame was not about to be dropped: its write went through
    have hfree : s.rxFifo.numFree ≠ 0 := by
      intro h0
      rw [ScFifo.nbWrite_eq_none.2 h0] at rx
      cases rx
    have hf := ht.shifted hs hfree
    refine ⟨⟨tx ▸ ht.tx, nbWrite rx hf ht.rx, frame_nil (by rw [t]; rfl)⟩, single _ ?_⟩
    intro n hn
    rwa [← Option.some.inj hn]
  | drop f hs t hfull ris rx tx =>
    exact ⟨⟨tx ▸ ht.tx, rx ▸ ht.rx, frame_nil (by rw [t]; rfl)⟩, single _ fun n hn => by cases hn⟩
  | reset ready t rx tx =>
    exact ⟨⟨tx ▸ drain ht.tx, rx ▸ drain ht.rx, ht.frame_congr t (by rw [rx, s.rxFifo.drain_spec.2.2.2.2])⟩,
      silent⟩
  | delta idle t rx tx =>
    refine ⟨⟨by rw [tx]; exact ht.tx, by rw [rx]; exact ht.rx, ?_⟩, silent⟩
    rw [t, (DataStep.inFlight_delta _ _ _).1]
    -- a thread whose frame is about to be dropped is runnable, and ends the delta cycle first
    intro f hf
    refine .inl ((ht.frame f hf).resolve_right fun hs => ?_)
    have hr := idle.1
    rw [hs.1] at hr
    cases hr

/-- All that the controller holds in a reachable state is of an epoch up to the current one. -/
theorem of_run {reg : SpiRegs} {is : List Op} {os : List Obs} (h : Run machine (powerUp reg) is os s) :
    Tagged (· ≤ s.epoch) s := by
  refine h.inv (fun s => Tagged (· ≤ s.epoch) s) (start reg) ?_
  intro a i b o hi ht
  have hstep := machine_dataStep hi
  exact (step hstep hstep.epoch_le (ht.mono fun n hn => hn.trans hstep.epoch_le)).1

/-- Nothing of before epoch `e` comes through in a run from a state that holds nothing of before. -/
theorem run {is : List Op} {os : List Obs} (h : Run machine s is os s') (he : e ≤ s.epoch)
    (ht : Tagged (e ≤ ·) s) : ∀ x ∈ os, ¬ x.FromBefore e := by
  have key := h.history (fun _ => True) (fun _ _ => trivial)
    (fun os a => (e ≤ a.epoch ∧ Tagged (e ≤ ·) a) ∧ ∀ x ∈ os, ¬ x.FromBefore e)
    ⟨⟨he, ht⟩, List.forall_mem_nil _⟩ ?_
  · exact key.2
  · intro os a i b o _ hi ⟨⟨hea, hta⟩, hos⟩
    have hstep := machine_dataStep hi
    obtain ⟨htb, hob⟩ := step hstep hea hta
    refine ⟨⟨hea.trans hstep.epoch_le, htb⟩, ?_⟩
    intro x hx
    rcases List.mem_append.1 hx with hx | hx
    · exact hos x hx
    · rintro ⟨n, hn, hlt⟩
      exact absurd (hob x hx n hn) (Nat.not_le_of_lt hlt)

end Tagged

/-! ### Continuations -/

/-- Some continuation lets something of before epoch `e` through. -/
def Leaks (e : Nat) (s : Spi) : Prop :=
  ∃ is os s', Run machine s is os s' ∧ ∃ x ∈ os, x.FromBefore e

namespace Leaks

theorem after {is : List Op} {os : List Obs} (h : Run machine s is os s') (hl : Leaks e s') : Leaks e s := by
  obtain ⟨is', os', s'', hrun, x, hx, hb⟩ := hl
  exact ⟨_, _, s'', h.append hrun, x, List.mem_append_right _ hx, hb⟩

theorem of_step {x : Obs} (h : machine s op = some (s', o)) (hx : x ∈ o) (hb : x.FromBefore e) : Leaks e s :=
  ⟨_, _, s', .single h, x, hx, hb⟩

end Leaks

/-- What the methods leave alone. -/
structure SamePath (s s' : Spi) : Prop where
  rx : s'.rxFifo = s.rxFifo
  tx : s'.txFifo = s.txFifo
  transmit : s'.transmit = s.transmit
  cr1 : s'.reg.cr1 = s.reg.cr1
  transmissionEvent : s'.transmissionEvent = s.transmissionEvent
  statusEvent : s'.statusEvent = s.statusEvent
  possibleIntrEvent : s'.possibleIntrEvent = s.possibleIntrEvent
  handleResetReady : s'.handleResetReady = s.handleResetReady
  now : s'.now = s.now

theorem SamePath.refl (s : Spi) : SamePath s s := ⟨rfl, rfl, rfl, rfl, rfl, rfl, rfl, rfl, rfl⟩

/-- The two update methods can be run until neither is ready. -/
theorem exists_methods (s : Spi) : ∃ is s', Run machine s is [] s' ∧ s'.updateIntrReady = false ∧
    s'.updateStatusReady = false ∧ SamePath s s' := by
  have hintr : ∃ is a, Run machine s is [] a ∧ a.updateIntrReady = false ∧ SamePath s a := by
    cases h : s.updateIntrReady with
    | false => exact ⟨_, s, .nil, h, .refl s⟩
    | true =>
      have hstep : machine s .updateIntr = some ({ s with updateIntrReady := false }.updateIntr, []) := if_pos h
      exact ⟨_, _, .single hstep, rfl, rfl, rfl, rfl, rfl, rfl, rfl, rfl, rfl, rfl⟩
  obtain ⟨is, a, hrun, ha, hs⟩ := hintr
  cases h : a.updateStatusReady with
  | false => exact ⟨is, a, hrun, ha, h, hs⟩
  | true =>
    have hstep : machine a .updateStatusReg =
        some ({ a with updateStatusReady := false }.updateStatusReg, []) := if_pos h
    refine ⟨_, _, hrun.snoc hstep, ha, rfl, hs.1, hs.2, hs.3, hs.4, hs.5, hs.6, hs.7, hs.8, hs.9⟩

/-- With SSE off, a runnable thread runs to its next wait; a frame that it ends meets a full `rx_fifo`. -/
theorem exists_thread (hsse : s.reg.cr1 &&& 0x2 = 0) (hready : s.handleResetReady = false)
    (hfull : ∀ f, s.transmit = .shifted f → s.rxFifo.numFree = 0) (hrun : s.transmit.runnable = true) :
    ∃ is os s', Run machine s is os s' ∧ (s'.transmit = .sleeping ∨ s'.transmit = .settling) ∧
      s'.rxFifo = s.rxFifo ∧ s'.txFifo = s.txFifo ∧ s'.handleResetReady = false := by
  have head : ∀ a : Spi, a.reg.cr1 = s.reg.cr1 → a.transmitHead =
      ({ a with isTransmitting := false, statusEvent := true, transmit := .sleeping }, []) := by
    intro a ha
    rw [transmitHead, ha, if_pos hsse]
  cases ht : s.transmit with
  | ready =>
    have hstep : machine s .transmit = some s.transmitHead := by simp only [machine, ht]
    rw [head s rfl] at hstep
    exact ⟨_, _, _, .single hstep, .inl rfl, rfl, rfl, hready⟩
  | settled =>
    have hstep : machine s .transmit =
        some { s with statusEvent := true, possibleIntrEvent := true }.transmitHead := by
      simp only [machine, ht]
    rw [head { s with statusEvent := true, possibleIntrEvent := true } rfl] at hstep
    exact ⟨_, _, _, .single hstep, .inl rfl, rfl, rfl, hready⟩
  | shifted f =>
    have hstep : machine s .transmit = some (s.transmitStore f) := by simp only [machine, ht]
    rw [transmitStore, ScFifo.nbWrite_eq_none.2 (hfull f ht)] at hstep
    exact ⟨_, _, _, .single hstep, .inr rfl, rfl, rfl, hready⟩
  | sleeping | inPeri | shifting | settling => rw [ht] at hrun; cases hrun

/-- With SSE off, what is runnable can be run until the delta cycle may end. -/
theorem exists_idle (hsse : s.reg.cr1 &&& 0x2 = 0) (hready : s.handleResetReady = false)
    (hfull : ∀ f, s.transmit = .shifted f → s.rxFifo.numFree = 0) :
    ∃ is os s', Run machine s is os s' ∧ s'.Idle ∧ s'.rxFifo = s.rxFifo ∧ s'.txFifo = s.txFifo ∧
      (s'.transmit = s.transmit ∨ s'.transmit = .sleeping ∨ s'.transmit = .settling) := by
  cases hrun : s.transmit.runnable with
  | false =>
    obtain ⟨is, a, hr, hi, hu, hs⟩ := exists_methods s
    exact ⟨is, _, a, hr, ⟨hs.transmit ▸ hrun, hi, hu, hs.handleResetReady ▸ hready⟩, hs.rx, hs.tx,
      .inl hs.transmit⟩
  | true =>
    obtain ⟨is, os, a, ha, ht, hrx, htx, hra⟩ := exists_thread hsse hready hfull hrun
    obtain ⟨is', b, hb, hi, hu, hs⟩ := exists_methods a
    have hidle : b.transmit.runnable = false := by
      rw [hs.transmit]
      rcases ht with ht | ht <;> rw [ht] <;> rfl
    exact ⟨_, _, b, ha.append hb, ⟨hidle, hi, hu, hs.handleResetReady ▸ hra⟩, hs.rx.trans hrx, hs.tx.trans htx,
      .inr (hs.transmit ▸ ht)⟩

/-- With SSE set and a word available, a thread at the head of its loop hands it over. -/
theorem machine_hand {w : Word} {tx : ScFifo Word fifoSize} (head : s.transmit = .ready ∨ s.transmit = .settled)
    (hsse : s.reg.cr1 &&& 0x2 ≠ 0) (hr : s.txFifo.nbRead = some (w, tx)) :
    ∃ b, machine s .transmit = some (b, [.handed w (bitsPerFrame s.reg.cr0)]) := by
  rcases head with ht | ht
  · simp only [machine, ht, transmitHead, if_neg hsse, hr]
    exact ⟨_, rfl⟩
  · simp only [machine, ht, transmitHead, if_neg hsse, hr]
    exact ⟨_, rfl⟩

theorem machine_delta (h : s.Idle) : machine s .delta = some (s.deltaCycle, []) := if_pos h

namespace Leaks

theorem of_shifted {f : Frame} (ht : s.transmit = .shifted f) (hfree : s.rxFifo.numFree ≠ 0)
    (he : f.epoch < e) : Leaks e s := by
  obtain ⟨rx, hrx⟩ := ScFifo.exists_nbWrite hfree ⟨f.dataBuffer &&& frameMask f.bitsPerFrame, f.epoch⟩
  have hstep : machine s .transmit = some (s.transmitStore f) := by simp only [machine, ht]
  rw [transmitStore, hrx] at hstep
  exact of_step hstep (List.mem_singleton_self _) ⟨f.epoch, rfl, he⟩

/-- A frame in flight completes sooner or later. -/
theorem of_shifting {f : Frame} {wake : Nat} (ht : s.transmit = .shifting f wake)
    (hready : s.handleResetReady = false) (hrx : s.rxFifo.contents.length < fifoSize) (he : f.epoch < e) :
    Leaks e s := by
  obtain ⟨is, a, hra, hia, hua, hsa⟩ := exists_methods s
  have hta : a.transmit = .shifting f wake := hsa.transmit.trans ht
  have hidle : a.Idle := ⟨by rw [hta]; rfl, hia, hua, hsa.handleResetReady.trans hready⟩
  have hfree : a.deltaCycle.rxFifo.numFree ≠ 0 := by
    show a.rxFifo.update.numFree ≠ 0
    rw [ScFifo.numFree_update, hsa.rx]
    omega
  refine after (hra.snoc (machine_delta hidle)) ?_
  by_cases hw : wake ≤ a.now
  · refine of_shifted (f := f) ?_ hfree he
    show a.transmit.delta a.transmissionEvent a.now = _
    rw [hta, Transmit.delta, if_pos hw]
  -- the wait is for a later time: with one more delta cycle nothing is left but to advance to it
  have htd : a.deltaCycle.transmit = .shifting f wake := by
    show a.transmit.delta a.transmissionEvent a.now = _
    rw [hta, Transmit.delta, if_neg hw]
  obtain ⟨is', b, hrb, hib, hub, hsb⟩ := exists_methods a.deltaCycle
  have htb : b.transmit = .shifting f wake := hsb.transmit.trans htd
  have hreadyb : b.handleResetReady = false := hsb.handleResetReady.trans (hsa.handleResetReady.trans hready)
  have hidleb : b.Idle := ⟨by rw [htb]; rfl, hib, hub, hreadyb⟩
  have hnow : b.now = a.now := hsb.now
  have htc : b.deltaCycle.transmit = .shifting f wake := by
    show b.transmit.delta b.transmissionEvent b.now = _
    rw [htb, Transmit.delta, if_neg (hnow ▸ hw)]
  have hsettled : b.deltaCycle.Settled := by
    refine ⟨⟨by rw [htc]; rfl, hsb.possibleIntrEvent, hsb.statusEvent, hreadyb⟩, by rw [htc]; simp, ?_⟩
    exact ⟨rfl, rfl, rfl, rfl, rfl, rfl, rfl, rfl⟩
  have hlt : b.deltaCycle.now < wake := hnow ▸ Nat.lt_of_not_le hw
  have hadv : machine b.deltaCycle (.advance wake) =
      some ({ b.deltaCycle with now := wake, transmit := .shifted f }, []) := by
    simp only [machine, htc]
    rw [if_pos ⟨hsettled, hlt⟩, if_neg (Nat.lt_irrefl wake), if_pos trivial]
  refine after ((hrb.snoc (machine_delta hidleb)).snoc hadv) (of_shifted (f := f) rfl ?_ he)
  show b.rxFifo.update.numFree ≠ 0
  rw [ScFifo.numFree_update, hsb.rx, ← ScFifo.numFree_update]
  exact hfree

theorem of_inPeri {f : Frame} {d : Nat} (ht : s.transmit = .inPeri f d)
    (hready : s.handleResetReady = false) (hrx : s.rxFifo.contents.length < fifoSize) (he : f.epoch < e) :
    Leaks e s := by
  have hstep : machine s (.periReturn 0 0) =
      some ({ s with transmit := .shifting { f with dataBuffer := 0 } (s.now + 0) }, [.replied 0]) := by
    simp only [machine, ht]
  exact after (.single hstep) (of_shifting (f := { f with dataBuffer := 0 }) rfl hready hrx he)

theorem of_rx (hsse : s.reg.cr1 &&& 0x2 = 0) (hready : s.handleResetReady = false)
    (hfull : ∀ f, s.transmit = .shifted f → s.rxFifo.numFree = 0) {w : Word} {rest : List Word}
    (hc : s.rxFifo.contents = w :: rest) (he : w.epoch < e) : Leaks e s := by
  obtain ⟨is, os, a, hrun, hidle, hrx, -, -⟩ := exists_idle hsse hready hfull
  have hca : a.rxFifo.update.contents = w :: rest := by rw [ScFifo.update_contents, hrx, hc]
  obtain ⟨rx, hr⟩ := ScFifo.exists_nbRead hca (by
    rw [ScFifo.numAvailable_update, hrx, hc]
    exact Nat.succ_ne_zero _)
  have hdr : a.deltaCycle.rxFifo.nbRead = some (w, rx) := hr
  have hstep : machine a.deltaCycle (.transport ⟨.read, 0x08, some [0, 0], 2, .incomplete, false⟩ 0) =
      some (a.deltaCycle.readDr.1, a.deltaCycle.readDr.2.2) := rfl
  rw [readDr, hdr] at hstep
  exact after (hrun.snoc (machine_delta hidle))
    (of_step hstep (List.mem_singleton_self _) ⟨w.epoch, rfl, he⟩)

/-- A word in `tx_fifo` is there for the thread, once SSE is set. -/
theorem of_tx (hsse : s.reg.cr1 &&& 0x2 = 0) (hready : s.handleResetReady = false)
    (hframe : ∀ f ∈ s.transmit.inFlight, s.transmit = .shifted f ∧ s.rxFifo.numFree = 0) {w : Word}
    {rest : List Word} (hc : s.txFifo.contents = w :: rest) (he : w.epoch < e) : Leaks e s := by
  obtain ⟨is, os, a, hrun, hidle, -, htx, ht⟩ := exists_idle hsse hready
    fun f hf => (hframe f (by rw [hf]; exact List.mem_singleton_self f)).2
  have hta : a.transmit = .sleeping ∨ a.transmit = .settling := by
    rcases ht with ht | ht
    · have hr := hidle.1
      rw [ht] at hr ⊢
      cases hs : s.transmit with
      | sleeping => exact .inl rfl
      | settling => exact .inr rfl
      | inPeri f | shifting f =>
        have hin := (hframe f (by rw [hs]; exact List.mem_singleton_self f)).1
        rw [hs] at hin
        cases hin
      | ready | shifted | settled => rw [hs] at hr; cases hr
    · exact ht
  -- SSE set, and a delta cycle: the thread is at the head of its loop with the word available
  have hset : machine a (.transport ⟨.write, 0x04, some [2, 0], 2, .incomplete, false⟩ 0) = some
      ({ a with reg := { a.reg with cr1 := 2 }, transmissionEvent := a.transmissionEvent || true }, []) := rfl
  rw [Bool.or_true] at hset
  generalize hb : { a with reg := { a.reg with cr1 := 2 }, transmissionEvent := true } = b at hset
  have hidleb : b.Idle := by rw [← hb]; exact hidle
  have htb : b.deltaCycle.transmit = .ready ∨ b.deltaCycle.transmit = .settled := by
    show b.transmit.delta b.transmissionEvent b.now = _ ∨ b.transmit.delta b.transmissionEvent b.now = _
    rw [← hb]
    rcases hta with ht | ht <;> rw [ht]
    · exact .inl rfl
    · exact .inr rfl
  have hcb : b.txFifo.contents = w :: rest := by rw [← hb]; exact (congrArg _ htx).trans hc
  obtain ⟨tx, hr⟩ : ∃ tx, b.deltaCycle.txFifo.nbRead = some (w, tx) :=
    ScFifo.exists_nbRead (f := b.txFifo.update) hcb (by
      rw [ScFifo.numAvailable_update, hcb]
      exact Nat.succ_ne_zero _)
  have hsseb : b.deltaCycle.reg.cr1 &&& 0x2 ≠ 0 := by
    rw [← hb]
    exact (by decide : (2 : UInt16) &&& 0x2 ≠ 0)
  refine after ((hrun.snoc hset).snoc (machine_delta hidleb)) ?_
  obtain ⟨c, hstep⟩ := machine_hand htb hsseb hr
  exact of_step hstep (List.mem_singleton_self _) ⟨w.epoch, rfl, he⟩

end Leaks

/-! ### The reset -/

theorem Clean.tagged (hc : Clean s) : Tagged (s.epoch + 1 ≤ ·) s.handleReset := by
  have htx := s.txFifo.drain_spec.2.1
  have hrx := s.rxFifo.drain_spec.2.1
  rw [hc.tx] at htx
  rw [hc.rx] at hrx
  refine ⟨?_, ?_, fun f hf => .inr ?_⟩
  · show ∀ w ∈ s.txFifo.drain.contents, _
    rw [List.eq_nil_of_length_eq_zero htx]
    exact List.forall_mem_nil _
  · show ∀ w ∈ s.rxFifo.drain.contents, _
    rw [List.eq_nil_of_length_eq_zero hrx]
    exact List.forall_mem_nil _
  · obtain ⟨ht, hfull⟩ := hc.frame f hf
    exact ⟨ht, s.rxFifo.drain_spec.2.2.2.2.trans hfull⟩

theorem exists_drain_cons {f : ScFifo Word fifoSize} (h : f.numWritten ≠ 0) (hP : ∀ w ∈ f.contents, P w.epoch) :
    ∃ w rest, f.drain.contents = w :: rest ∧ P w.epoch := by
  cases hc : f.drain.contents with
  | nil =>
    have hl := f.drain_spec.2.1
    rw [hc] at hl
    exact absurd hl.symm h
  | cons w rest => exact ⟨w, rest, rfl, Tagged.drain hP w (by rw [hc]; exact List.mem_cons_self)⟩

theorem leaks_of_not_clean (ht : Tagged (· ≤ s.epoch) s) (hn : ¬ Clean s) :
    Leaks (s.epoch + 1) s.handleReset := by
  have hsse : s.handleReset.reg.cr1 &&& 0x2 = 0 := UInt16.zero_and
  have hfree : s.handleReset.rxFifo.numFree = s.rxFifo.numFree := s.rxFifo.drain_spec.2.2.2.2
  by_cases hsh : ∃ f, s.transmit = .shifted f ∧ s.rxFifo.numFree ≠ 0
  · obtain ⟨f, hf, hne⟩ := hsh
    exact .of_shifted (f := f) hf (hfree ▸ hne) (Nat.lt_succ_of_le (ht.shifted hf hne))
  have hfull : ∀ f, s.handleReset.transmit = .shifted f → s.handleReset.rxFifo.numFree = 0 := fun f hf =>
    hfree.trans (not_not.1 fun hne => hsh ⟨f, hf, hne⟩)
  by_cases hrx : s.rxFifo.numWritten = 0
  swap
  · obtain ⟨w, rest, hc, hw⟩ := exists_drain_cons (P := (· ≤ s.epoch)) hrx ht.rx
    exact .of_rx (w := w) hsse rfl hfull hc (Nat.lt_succ_of_le hw)
  have hroom : s.handleReset.rxFifo.contents.length < fifoSize := by
    show s.rxFifo.drain.contents.length < _
    rw [s.rxFifo.drain_spec.2.1, hrx]
    decide
  -- the FIFOs apart, only a frame at the peripheral or in its wait is left to come through
  by_cases hframe : ∀ f ∈ s.transmit.inFlight, s.transmit = .shifted f ∧ s.rxFifo.numFree = 0
  · have htx : s.txFifo.numWritten ≠ 0 := fun h0 => hn ⟨h0, hrx, hframe⟩
    obtain ⟨w, rest, hc, hw⟩ := exists_drain_cons (P := (· ≤ s.epoch)) htx ht.tx
    exact .of_tx (w := w) hsse rfl (fun f hf => ⟨(hframe f hf).1, hfree.trans (hframe f hf).2⟩) hc
      (Nat.lt_succ_of_le hw)
  cases hs : s.transmit with
  | inPeri f d =>
    exact .of_inPeri (f := f) hs rfl hroom (Nat.lt_succ_of_le (ht.inPeri hs))
  | shifting f wk =>
    exact .of_shifting (f := f) hs rfl hroom (Nat.lt_succ_of_le (ht.shifting hs))
  | shifted f =>
    refine absurd (fun g hg => ?_) hframe
    rw [hs] at hg ⊢
    obtain rfl := List.mem_singleton.1 hg
    exact ⟨rfl, hfree.symm.trans (hfull g hs)⟩
  | ready | sleeping | settling | settled =>
    refine absurd (fun g hg => ?_) hframe
    rw [hs] at hg
    exact absurd hg List.not_mem_nil

end Spi

open Spi

/-- What an SPI reset isolates. At a run of `handle_reset` in a reachable state, no continuation hands over,
stores or returns a word or a reply of before the reset iff neither FIFO was written since the last update
phase and no frame is in flight, but one whose wait is over and which finds `rx_fifo` full. -/
theorem spi_reset_isolates_iff (reg : SpiRegs) (is : List Op) (os : List Obs) (s s' : Spi) (o : List Obs)
    (hrun : Run machine (powerUp reg) is os s) (hreset : machine s .handleReset = some (s', o)) :
    (∀ is' os' s'', Run machine s' is' os' s'' → ∀ x ∈ os', ¬ x.FromBefore s'.epoch) ↔
      s.txFifo.numWritten = 0 ∧ s.rxFifo.numWritten = 0 ∧
        ∀ f ∈ s.transmit.inFlight, s.transmit = .shifted f ∧ s.rxFifo.numFree = 0 := by
  simp only [machine] at hreset
  split at hreset
  swap
  · cases hreset
  cases hreset
  constructor
  · intro hiso
    by_contra hn
    obtain ⟨is', os', s'', hrun', x, hx, hb⟩ := leaks_of_not_clean (Tagged.of_run hrun)
      fun hc => hn ⟨hc.tx, hc.rx, hc.frame⟩
    exact hiso is' os' s'' hrun' x hx hb
  · rintro ⟨htx, hrx, hframe⟩ is' os' s'' hrun'
    exact Tagged.run hrun' le_rfl (Clean.tagged ⟨htx, hrx, hframe⟩)

/-- Start-up, a word written and available, and a falling edge of `reset`. -/
def oneQueued : List Op :=
  [.handleReset, .transmit, .transport ⟨.write, 0x08, some [0x55, 0x00], 2, .incomplete, false⟩ 0, .delta,
    .resetNeg]

theorem spi_reset_isolates_oneQueued : ∃ os s s', Run machine (powerUp default) oneQueued os s ∧
    machine s .handleReset = some (s', []) ∧
    ∀ is' os' s'', Run machine s' is' os' s'' → ∀ x ∈ os', ¬ x.FromBefore s'.epoch := by
  have hx : (exec machine (powerUp default) oneQueued).map (fun r =>
      (r.1.handleResetReady, r.1.txFifo.numWritten, r.1.rxFifo.numWritten, r.1.transmit)) =
        some (true, 0, 0, .ready) := by decide +kernel
  obtain ⟨⟨s, os⟩, he, hs⟩ := Option.map_eq_some_iff.1 hx
  simp only [Prod.mk.injEq] at hs
  obtain ⟨hready, htx, hrx, ht⟩ := hs
  have hreset : machine s .handleReset = some (s.handleReset, []) := if_pos hready
  exact ⟨os, s, _, Run.of_exec he, hreset,
    (spi_reset_isolates_iff _ _ _ s _ _ (Run.of_exec he) hreset).2
      ⟨htx, hrx, by rw [ht]; exact List.forall_mem_nil _⟩⟩

/-- A frame in flight, and a word written in the delta cycle in which `handle_reset` runs. -/
def midFrame : List Op :=
  [.handleReset, .transmit,
    .transport ⟨.write, 0x00, some [0x07, 0x00], 2, .incomplete, false⟩ 0,
    .transport ⟨.write, 0x04, some [0x02, 0x00], 2, .incomplete, false⟩ 0,
    .transport ⟨.write, 0x08, some [0x55, 0x00], 2, .incomplete, false⟩ 0,
    .delta, .updateIntr, .updateStatusReg, .transmit, .periReturn 0xAB 160000, .delta, .updateStatusReg,
    .resetNeg, .transport ⟨.write, 0x08, some [0x66, 0x00], 2, .incomplete, false⟩ 0]

/-- The frame completes, SSE is set again, and the next frame takes the word. -/
def afterReset : List Op :=
  [.delta, .updateIntr, .delta, .advance 160000, .transmit,
    .transport ⟨.write, 0x04, some [0x02, 0x00], 2, .incomplete, false⟩ 0, .delta, .transmit]

/-- The reply of the frame begun before the reset is stored after it, and the word written before it is
handed over. -/
theorem not_isolated_midFrame :
    ¬ ∀ (reg : SpiRegs) (is : List Op) (os : List Obs) (s s' : Spi) (o : List Obs),
      Run machine (powerUp reg) is os s → machine s .handleReset = some (s', o) →
        ∀ is' os' s'', Run machine s' is' os' s'' → ∀ x ∈ os', ¬ x.FromBefore s'.epoch := by
  intro h
  have hx : ((exec machine (powerUp default) midFrame).bind fun r =>
      (machine r.1 .handleReset).bind fun q => (exec machine q.1 afterReset).map fun t => (q.1.epoch, t.2)) =
        some (2, [.ended ⟨8, 0xAB, 1⟩ false, .handed ⟨0x66, 1⟩ 1]) := by decide +kernel
  obtain ⟨⟨s, os⟩, hpre, hx⟩ := Option.bind_eq_some_iff.1 hx
  obtain ⟨⟨s', o⟩, hreset, hx⟩ := Option.bind_eq_some_iff.1 hx
  obtain ⟨⟨s'', os'⟩, hpost, hx⟩ := Option.map_eq_some_iff.1 hx
  obtain ⟨he, rfl⟩ := Prod.mk.inj hx
  refine h _ _ _ s s' o (Run.of_exec hpre) hreset _ _ _ (Run.of_exec hpost) _ List.mem_cons_self ?_
  exact ⟨1, rfl, by rw [show s'.epoch = 2 from he]; decide⟩

end CdcVp
