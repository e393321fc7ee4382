import CdcVp.LittleEndian
import CdcVp.MiniPlatform
import CdcVp.Programs
import Mathlib.Data.List.Infix

/-!
# `cpu_stub`

The initiator of `mini_tlm` and `mini_soc`: it writes to the UART, checks the RAM, arms the device, waits for its
interrupt and writes again. `script` is what it sends if nothing fails. `Did` says how far it has come, and `Failed`
how it ends by an exception.
-/

namespace CdcVp
open FlatStore LittleEndian Programs Runs

namespace CpuStub
open MiniPlatform

/-- The process. Its exception is the text of the `runtime_error`. -/
abbrev Stub (υ δ α : Type*) := Prog (Op υ δ) Payload String α

abbrev Trace (m : MiniMap) (υ δ : Type*) := List (Step (MiniPlatform m υ δ) (Op υ δ) Payload)

def kPattern : UInt32 := 0xCAFEBABE

def text (s : String) : List UInt8 := s.toUTF8.toList

section
variable {υ δ : Type*}

/-- `bus_socket->b_transport`, with the exception where `is_response_error`. -/
def access (what : String) (t : Payload) : Stub υ δ Payload :=
  .call (.transport t 0) fun o =>
    if (o.headD t).responseStatus = .ok then .ret (o.headD t) else .throw what

def byteTo (addr : UInt64) (value : UInt8) : Payload := ⟨.write, addr, some [value], 1, .incomplete, false⟩

def wordTo (addr : UInt64) (value : UInt32) : Payload :=
  ⟨.write, addr, some (bytes 4 value.toNat), 4, .incomplete, false⟩

def wordFrom (addr : UInt64) : Payload := ⟨.read, addr, some [0, 0, 0, 0], 4, .incomplete, false⟩

def write8 (addr : UInt64) (value : UInt8) : Stub υ δ Unit :=
  (access "UART write failed" (byteTo addr value)).bind fun _ => .ret ()

def write32 (addr : UInt64) (value : UInt32) : Stub υ δ Unit :=
  (access "word write failed" (wordTo addr value)).bind fun _ => .ret ()

def read32 (addr : UInt64) : Stub υ δ UInt32 :=
  (access "word read failed" (wordFrom addr)).bind fun r => .ret (UInt32.ofNat (value ((r.dataPtr.getD []).take 4)))

def writeUart (text : List UInt8) : Stub υ δ Unit := .forEach (write8 kUartBase) text

/-- `wait` on the positive edge of the line. -/
def wait : Stub υ δ Unit := .call (.irq true) fun _ => .ret ()

def checkRam : Stub υ δ Unit := do
  write32 kRamBase kPattern
  let value ← read32 kRamBase
  if value = kPattern then return () else .throw "RAM read-back mismatch"

def run (m : MiniMap) : Stub υ δ Unit := do
  writeUart (text m.hello)
  checkRam
  .forEach (fun w => write32 (m.deviceBase + w.1) w.2) m.arm
  wait
  writeUart (text m.fired)

end

/-- The timer's platform. -/
def miniTlm : MiniMap where
  deviceBase := 0x10001000
  ramSize := 0x1000
  hello := "Hello from mini VP\n"
  arm := [(0, 1)]
  fired := "Timer IRQ fired at 10ms\n"
  device_above := by decide
  device_below := by decide
  ram_word := by decide
  ram_end := by decide
  arm_lt := by simp

/-- The I2C's platform. -/
def miniSoc : MiniMap where
  deviceBase := 0x10010000
  ramSize := 0x10000
  hello := "Hello from mini SoC \n"
  arm := [(0x4C, 1), (0x00, 1), (0x04, 1)]
  fired := "I2C IRQ fired\n"
  device_above := by decide
  device_below := by decide
  ram_word := by decide
  ram_end := by decide
  arm_lt := by simp

/-! ### What the stub sends -/

section
variable {υ δ : Type*} {m : MiniMap}

/-- What it sends before it waits. -/
def before (m : MiniMap) : List Payload :=
  (text m.hello).map (byteTo kUartBase) ++ [wordTo kRamBase kPattern, wordFrom kRamBase] ++
    m.arm.map fun w => wordTo (m.deviceBase + w.1) w.2

def script (m : MiniMap) : List Payload := before m ++ (text m.fired).map (byteTo kUartBase)

def sent (tr : Trace m υ δ) : List Payload :=
  tr.filterMap fun e => match e.input with
    | .transport t _ => some t
    | _ => none

def answers (tr : Trace m υ δ) : List Payload := tr.flatMap Step.obs

/-- The line has gone up once all was sent that comes before the wait. -/
def Edge (tr : Trace m υ δ) : Prop :=
  ∃ tr₁ e tr₂, tr = tr₁ ++ e :: tr₂ ∧ e.input = .irq true ∧ e.pre.irq = false ∧ sent tr₁ = before m

/-- What the platform does besides: the line and the IP blocks change. -/
def Own (op : Op υ δ) : Prop := ∀ t d, op ≠ .transport t d

/-- The stub has sent `pre`, all of it was answered OK, and the RAM is `r`. -/
structure Did (r : MemoryTlm) (waited : Prop) (pre : List Payload) (tr : Trace m υ δ) (s : MiniPlatform m υ δ) :
    Prop where
  sent : sent tr = pre
  ok : ∀ p ∈ answers tr, p.responseStatus = .ok
  ram : s.ram = r
  edge : waited → Edge tr

/-- The text of the exception for a write that fails. -/
def errorOf (t : Payload) : String := if t.dataLength = 1 then "UART write failed" else "word write failed"

/-- The access that the stub sent last was to an IP block, and failed. -/
def Failed (what : String) (tr : Trace m υ δ) : Prop :=
  ∃ pre t, sent tr = pre ++ [t] ∧ pre ++ [t] <+: script m ∧ t.address.toNat < 0x80000000 ∧ what = errorOf t ∧
    (∃ init p, answers tr = init ++ [p] ∧ (∀ q ∈ init, q.responseStatus = .ok) ∧ p.responseStatus ≠ .ok) ∧
    (pre.length < (before m).length ∨ Edge tr)

variable {tr tr' : Trace m υ δ} {r : MemoryTlm} {waited : Prop} {pre post : List Payload} {t : Payload} {what : String}
  {s s' : MiniPlatform m υ δ} {ip : MiniIp υ δ} {op : Op υ δ} {o : List Payload} {ν : Type*} {d : Nat}

theorem Edge.append (h : Edge tr) (tr' : Trace m υ δ) : Edge (tr ++ tr') := by
  obtain ⟨tr₁, e, tr₂, rfl, he⟩ := h
  exact ⟨tr₁, e, tr₂ ++ tr', by rw [List.append_assoc, List.cons_append], he⟩

/-- The step of a transaction. -/
def sending (ip : MiniIp υ δ) (s : MiniPlatform m υ δ) (t : Payload) : Step (MiniPlatform m υ δ) (Op υ δ) Payload :=
  ⟨s, .transport t 0, (s.bTransport ip t 0).1, [(s.bTransport ip t 0).2.1]⟩

theorem sent_sending (tr : Trace m υ δ) : sent (tr ++ [sending ip s t]) = sent tr ++ [t] := by
  simp [sent, sending]

theorem answers_snoc (tr : Trace m υ δ) (e : Step (MiniPlatform m υ δ) (Op υ δ) Payload) :
    answers (tr ++ [e]) = answers tr ++ e.obs := by
  simp [answers]

/-- The other inputs send nothing. -/
theorem sent_own (hop : Own op) (tr : Trace m υ δ) : sent (tr ++ [⟨s, op, s', o⟩]) = sent tr := by
  rcases op with ⟨t, d⟩ | level | u | u
  · exact absurd rfl (hop t d)
  all_goals simp [sent]

theorem answers_own (h : machine m ip s op = some (s', o)) (hop : Own op) (tr : Trace m υ δ) :
    answers (tr ++ [⟨s, op, s', o⟩]) = answers tr := by
  rw [answers_snoc, (step_quiet h hop).2, List.append_nil]

/-- One more access, answered OK. -/
theorem Did.snoc {r' : MemoryTlm} (h : Did r waited pre tr s) (hok : (s.bTransport ip t 0).2.1.responseStatus = .ok)
    (hr : (s.bTransport ip t 0).1.ram = r') :
    Did r' waited (pre ++ [t]) (tr ++ [sending ip s t]) (s.bTransport ip t 0).1 := by
  refine ⟨by rw [sent_sending, h.sent], ?_, hr, fun hw => (h.edge hw).append _⟩
  rw [answers_snoc, List.forall_mem_append]
  exact ⟨h.ok, List.forall_mem_singleton.2 hok⟩

theorem keeps_did : Keeps (machine m ip) Own (Did r waited pre) := by
  intro tr s op s' o hop hm h
  refine ⟨by rw [sent_own hop, h.sent], ?_, (step_quiet hm hop).1.trans h.ram, fun hw => (h.edge hw).append _⟩
  rw [answers_own hm hop]
  exact h.ok

theorem keeps_failed : Keeps (machine m ip) Own fun tr (_ : MiniPlatform m υ δ) => Failed what tr := by
  rintro tr s op s' o hop hm ⟨pre, t, hs, hpre, hlow, hw, hl, he⟩
  refine ⟨pre, t, by rw [sent_own hop, hs], hpre, hlow, hw, ?_, he.imp_right fun h => h.append _⟩
  rw [answers_own hm hop]
  exact hl

/-! ### The accesses -/

/-- Every exception is one of a failed access. -/
abbrev Fails (ν : Type*) (m : MiniMap) (υ δ : Type*) : String → Assn (MiniPlatform m υ δ) (Op υ δ) Payload ν :=
  fun what _ tr _ => Failed what tr

theorem access_triple {P : Trace m υ δ → MiniPlatform m υ δ → Prop}
    {Q : Payload → Trace m υ δ → MiniPlatform m υ δ → Prop} (hP : Keeps (machine m ip) Own P)
    (hQ : ∀ p, Keeps (machine m ip) Own (Q p))
    (hi : ∀ tr s, P tr s → if (s.bTransport ip t 0).2.1.responseStatus = .ok
      then Q (s.bTransport ip t 0).2.1 (tr ++ [sending ip s t]) (s.bTransport ip t 0).1
      else Failed what (tr ++ [sending ip s t])) :
    Triple (machine m ip) (.inputs (machine m ip) Own) (fun (_ : ν) => P) (access what t) (fun p _ => Q p)
      (Fails ν m υ δ) := by
  refine Triple.call (N := fun o _ tr s => if (o.headD t).responseStatus = .ok then Q (o.headD t) tr s
    else Failed what tr) (stable_inputs fun _ => hP) ?_ ?_
  · intro v tr s s' o hpre h
    cases h
    exact hi tr s hpre
  · intro o
    by_cases ho : (o.headD t).responseStatus = .ok
    · simp only [ho, if_true]
      exact .ret (stable_inputs fun _ => hQ _) fun _ _ _ h => h
    · simp only [ho, if_false]
      exact .throw (R := Fails ν m υ δ) (stable_inputs fun _ => keeps_failed)

/-- An access to an IP block, which may fail. -/
theorem access_ip (hlow : t.address.toNat < 0x80000000) (hpre : pre ++ [t] <+: script m)
    (hw : pre.length < (before m).length ∨ waited) :
    Triple (machine m ip) (.inputs (machine m ip) Own) (fun (_ : ν) => Did r waited pre) (access (errorOf t) t)
      (fun _ _ => Did r waited (pre ++ [t])) (Fails ν m υ δ) := by
  refine access_triple keeps_did (fun _ => keeps_did) fun tr s h => ?_
  split
  · rename_i hok
    exact h.snoc hok ((ram_bTransport (MiniMap.not_contains_ram hlow)).trans h.ram)
  · rename_i hno
    refine ⟨pre, t, by rw [sent_sending, h.sent], hpre, hlow, rfl, ⟨answers tr, _, answers_snoc _ _, h.ok, hno⟩, ?_⟩
    exact hw.imp_right fun hw => (h.edge hw).append _

/-- An access to the RAM, which cannot fail. -/
theorem access_ram {r' : MemoryTlm} {b : List UInt8} (hram : m.ramRange.contains t.address = true)
    (hi : ∀ s : MiniPlatform m υ δ, s.ram = r →
      (s.ram.bTransport (m.ramRange.toLocal t) 0).1 = r' ∧
      (s.ram.bTransport (m.ramRange.toLocal t) 0).2.1.responseStatus = .ok ∧
      (s.ram.bTransport (m.ramRange.toLocal t) 0).2.1.dataPtr = some b) :
    Triple (machine m ip) (.inputs (machine m ip) Own) (fun (_ : ν) => Did r waited pre) (access what t)
      (fun p _ tr s => p.dataPtr = some b ∧ Did r' waited (pre ++ [t]) tr s) (Fails ν m υ δ) := by
  refine access_triple keeps_did (fun p tr s op s' o hop hm h => ⟨h.1, keeps_did tr s op s' o hop hm h.2⟩)
    fun tr s h => ?_
  obtain ⟨hr, hok, hp⟩ := hi s h.ram
  have he : s.bTransport ip t 0 = _ := bTransport_ram hram
  have hok' : (s.bTransport ip t 0).2.1.responseStatus = .ok := by
    rw [he]
    exact hok
  rw [if_pos hok']
  exact ⟨by rw [he]; exact hp, h.snoc hok' (by rw [he]; exact hr)⟩

theorem ram_first : m.ramRange.contains kRamBase = true := by
  rw [MiniMap.contains_ram]
  have hw := m.ram_word
  have hb : kRamBase.toNat = 0x80000000 := rfl
  omega

/-- The RAM once it holds the pattern. -/
def tested (r : MemoryTlm) : MemoryTlm := r.store 0 (bytes 4 kPattern.toNat)

theorem slice_tested (h : 4 ≤ r.data.length) : (tested r).slice 0 4 = bytes 4 kPattern.toNat := by
  have hfit : 0 + (bytes 4 kPattern.toNat).length ≤ r.data.length := by simpa using h
  rw [MemoryTlm.slice, tested, MemoryTlm.store_data _ hfit, blit]
  simp

theorem toLocal_first (h : t.address = kRamBase) : (m.ramRange.toLocal t).address = 0 := by
  show t.address - kRamBase = 0
  rw [h, UInt64.sub_self]

theorem fits_first (s : MiniPlatform m υ δ) (h : t.address = kRamBase) (hl : t.dataLength = 4) :
    s.ram.Fits (m.ramRange.toLocal t) := by
  have hw := m.ram_word
  rw [MemoryTlm.Fits, toLocal_first h, AddressRange.toLocal_dataLength, hl, s.ram_size]
  exact (Nat.zero_add _).trans_le hw

theorem write_first (s : MiniPlatform m υ δ) :
    (s.ram.bTransport (m.ramRange.toLocal (wordTo kRamBase kPattern)) 0).1 = tested s.ram ∧
    (s.ram.bTransport (m.ramRange.toLocal (wordTo kRamBase kPattern)) 0).2.1.responseStatus = .ok ∧
    (s.ram.bTransport (m.ramRange.toLocal (wordTo kRamBase kPattern)) 0).2.1.dataPtr =
      some (bytes 4 kPattern.toNat) := by
  have hb : (m.ramRange.toLocal (wordTo kRamBase kPattern)).HasBuffer (bytes 4 kPattern.toNat) :=
    ⟨rfl, length_bytes 4 _⟩
  rcases MemoryTlm.bTransport_cases (m := s.ram) hb 0 with ⟨-, hc, -⟩ | ⟨-, -, -, he⟩ | ⟨hno, -⟩
  · cases hc
  · rw [he, toLocal_first rfl]
    exact ⟨rfl, rfl, rfl⟩
  · exact absurd ⟨fits_first s rfl rfl, .inr ⟨rfl, s.ram_writable⟩⟩ hno

theorem read_first (s : MiniPlatform m υ δ) (hlen : 4 ≤ r.data.length) (hs : s.ram = tested r) :
    (s.ram.bTransport (m.ramRange.toLocal (wordFrom kRamBase)) 0).1 = tested r ∧
    (s.ram.bTransport (m.ramRange.toLocal (wordFrom kRamBase)) 0).2.1.responseStatus = .ok ∧
    (s.ram.bTransport (m.ramRange.toLocal (wordFrom kRamBase)) 0).2.1.dataPtr = some (bytes 4 kPattern.toNat) := by
  have hb : (m.ramRange.toLocal (wordFrom kRamBase)).HasBuffer [0, 0, 0, 0] := ⟨rfl, rfl⟩
  rcases MemoryTlm.bTransport_cases (m := s.ram) hb 0 with ⟨-, -, he⟩ | ⟨-, hc, -⟩ | ⟨hno, -⟩
  · rw [he, toLocal_first rfl, hs]
    exact ⟨rfl, rfl, congrArg some (slice_tested hlen)⟩
  · cases hc
  · exact absurd ⟨fits_first s rfl rfl, .inl rfl⟩ hno

/-- The test of the RAM passes. -/
theorem checkRam_triple : Triple (machine m ip) (.inputs (machine m ip) Own)
    (fun (_ : ν) tr s => 4 ≤ r.data.length ∧ Did r waited pre tr s) checkRam
    (fun _ _ => Did (tested r) waited (pre ++ [wordTo kRamBase kPattern, wordFrom kRamBase])) (Fails ν m υ δ) := by
  have hkeeps (φ : Prop) (r : MemoryTlm) (pre : List Payload) :
      Keeps (machine m ip) Own fun tr s => φ ∧ Did r waited pre tr s :=
    fun tr s op s' o hop hm h => ⟨h.1, keeps_did tr s op s' o hop hm h.2⟩
  refine .of_pure fun hlen => ?_
  refine .bind (Q := fun _ _ => Did (tested r) waited (pre ++ [wordTo kRamBase kPattern])) ?_ fun _ => ?_
  · refine .bind (access_ram (b := bytes 4 kPattern.toNat) ram_first fun s hs => ?_) fun _ =>
      .ret (stable_inputs fun _ => hkeeps _ _ _) fun _ _ _ h => h.2
    rw [← hs]
    exact write_first s
  refine .bind (Q := fun v _ tr s => v = kPattern ∧
    Did (tested r) waited (pre ++ [wordTo kRamBase kPattern, wordFrom kRamBase]) tr s) ?_ fun v => .of_pure fun hv => ?_
  · refine .bind (access_ram ram_first fun s hs => read_first s hlen hs) fun p =>
      .ret (stable_inputs fun _ => hkeeps _ _ _) ?_
    rintro _ tr s ⟨hp, h⟩
    refine ⟨?_, by rwa [List.append_assoc] at h⟩
    rw [hp]
    decide
  · rw [if_pos hv]
    exact .ret (stable_inputs fun _ => keeps_did) fun _ _ _ h => h

/-! ### The whole process -/

/-- Writes to an IP block, one for each of a list. -/
theorem forEach_triple (pre : List Payload) {τ : Type*} {as : List τ} {f : τ → Payload} {g : τ → Stub υ δ Unit}
    (hg : ∀ a, g a = (access (errorOf (f a)) (f a)).bind fun _ => .ret ())
    (hlow : ∀ a ∈ as, (f a).address.toNat < 0x80000000) (hpre : pre ++ as.map f <+: script m)
    (hw : (pre ++ as.map f).length ≤ (before m).length ∨ waited) :
    Triple (machine m ip) (.inputs (machine m ip) Own) (fun (_ : ν) => Did r waited pre) (.forEach g as)
      (fun _ _ => Did r waited (pre ++ as.map f)) (Fails ν m υ δ) := by
  suffices h : Triple (machine m ip) (.inputs (machine m ip) Own) (fun (_ : ν) => Did r waited (pre ++ [].map f))
      (.forEach g as) (fun _ _ => Did r waited (pre ++ as.map f)) (Fails ν m υ δ) by simpa using h
  refine .forEach (I := fun done (_ : ν) => Did r waited (pre ++ done.map f))
    (fun _ => stable_inputs fun _ => keeps_did) ?_
  rintro done a post rfl
  rw [hg]
  have hnext : (pre ++ done.map f ++ [f a]) ++ post.map f = pre ++ (done ++ a :: post).map f := by simp
  refine .bind (access_ip (hlow a (by simp)) ?_ ?_) fun _ => .ret (stable_inputs fun _ => keeps_did) ?_
  · exact (List.prefix_append _ (post.map f)).trans (hnext ▸ hpre)
  · refine hw.imp_left fun hle => ?_
    rw [← hnext, List.length_append, List.length_append] at hle
    exact (Nat.lt_succ_self _).trans_le ((Nat.le_add_right _ _).trans hle)
  · intro _ tr s h
    rwa [List.append_assoc, ← List.map_singleton (f := f), ← List.map_append] at h

theorem wait_triple : Triple (machine m ip) (.inputs (machine m ip) Own) (fun (_ : ν) => Did r False (before m)) wait
    (fun _ _ => Did r True (before m)) (Fails ν m υ δ) := by
  refine Triple.call (N := fun _ _ => Did r True (before m)) (stable_inputs fun _ => keeps_did) ?_ fun _ =>
    .ret (stable_inputs fun _ => keeps_did) fun _ _ _ h => h
  intro _ tr s s' o h hm
  have hown : Own (.irq true : Op υ δ) := fun t d heq => by cases heq
  have hnext := keeps_did tr s _ s' o hown hm h
  obtain ⟨hne, -⟩ := Option.ite_none_left_eq_some.1 hm
  exact ⟨hnext.sent, hnext.ok, hnext.ram, fun _ => ⟨tr, _, [], rfl, rfl, Bool.eq_false_iff.2 (Ne.symm hne), h.sent⟩⟩

theorem run_triple (m : MiniMap) (ip : MiniIp υ δ) (r : MemoryTlm) :
    Triple (machine m ip) (.inputs (machine m ip) Own) (fun (_ : ν) tr s => 4 ≤ r.data.length ∧ Did r False [] tr s)
      (run m) (fun _ _ => Did (tested r) True (script m)) (Fails ν m υ δ) := by
  have uart_low : kUartBase.toNat < 0x80000000 := by decide
  refine .of_pure fun hlen => ?_
  refine .bind (forEach_triple [] (f := byteTo kUartBase) (fun _ => rfl) (fun _ _ => uart_low) ?_ ?_)
    fun _ => ?_
  · exact (List.prefix_append _ _).trans ((List.prefix_append _ _).trans (List.prefix_append _ _))
  · simp [before]
  refine .bind (checkRam_triple.mono (fun _ _ _ h => ⟨hlen, h⟩) (fun _ _ _ _ h => h) fun _ _ _ _ h => h) fun _ => ?_
  refine .bind (forEach_triple _ (f := fun w : UInt64 × UInt32 => wordTo (m.deviceBase + w.1) w.2) (fun _ => rfl)
    (fun w hw => MiniMap.toNat_arm hw) (List.prefix_append _ _) (.inl (Nat.le_refl _))) fun _ => ?_
  refine .bind wait_triple fun _ => ?_
  exact forEach_triple (before m) (f := byteTo kUartBase) (fun _ => rfl) (fun _ _ => uart_low)
    (List.prefix_refl _) (.inr trivial)

end

/-- The stub on its platform, whatever the IP blocks do. It ends when it has sent all of its script, in order and each
answered OK, with its pattern in the RAM, and the second text after an edge of the line that came once the device was
armed. Else an access to an IP block has failed, the last that it sent, and the exception tells its width. The RAM test
never fails. -/
theorem cpu_stub_run {υ δ : Type*} (m : MiniMap) (ip : MiniIp υ δ) (s s' : MiniPlatform m υ δ) (tr : Trace m υ δ)
    (q : Except String Unit) (hrun : Exec (machine m ip) (.inputs (machine m ip) Own) (run m) () s tr q () s') :
    match q with
    | .ok () => sent tr = script m ∧ (∀ p ∈ answers tr, p.responseStatus = .ok) ∧ s'.ram = tested s.ram ∧ Edge tr
    | .error what => Failed what tr := by
  have hlen : 4 ≤ s.ram.data.length := by
    rw [s.ram_size]
    exact m.ram_word
  have h := run_triple (ν := Unit) m ip s.ram () [] s tr q () s'
    ⟨hlen, rfl, List.forall_mem_nil _, rfl, False.elim⟩ hrun
  rcases q with what | u
  · exact h
  · exact ⟨h.sent, h.ok, h.ram, h.edge trivial⟩

theorem cpu_stub_run_idle : ∃ (tr : Trace miniTlm Unit Unit) (s' : MiniPlatform miniTlm Unit Unit),
    Exec (machine miniTlm MiniIp.idle) (.inputs (machine miniTlm MiniIp.idle) Own) (run miniTlm) () (new miniTlm () ())
      tr (.ok ()) () s' ∧ sent tr = script miniTlm ∧ Edge tr := by
  obtain ⟨_, tr, s', h⟩ := Exec.of_isOk (M := machine miniTlm MiniIp.idle)
    (B := .inputs (machine miniTlm MiniIp.idle) Own) (p := run miniTlm) (s := new miniTlm () ()) (by decide +kernel) ()
  obtain ⟨hs, -, -, he⟩ := cpu_stub_run miniTlm MiniIp.idle _ _ _ _ h
  exact ⟨tr, s', h, hs, he⟩

end CpuStub
end CdcVp
