import CdcVp.MemoryBus

/-!
# The bus is one flat byte store

`flat_step`: a transaction writes the flat store where it is an accepted write and leaves it alone
otherwise. `flat_run` carries this over a sequence of transactions: the store is the initial one under
the accepted writes, in order. `bus_refines_flat_store` reads both byte by byte.
-/

namespace CdcVp
open FlatStore

namespace MemoryBus

/-- The memories after a sequence of blocking transactions, each with its incoming delay. -/
def run (r : BusRouter) (mems : List MemoryTlm) (ts : List (Payload × Nat)) : List MemoryTlm :=
  ts.foldl (fun ms t => (r.bTransport socket ms t.1 t.2).1) mems

/-- What an answered transaction stored: its buffer, if it is a write answered OK. -/
def written (trans out : Payload) : List (Block UInt8) :=
  if trans.command = .write ∧ out.responseStatus = .ok then
    [(trans.address.toNat, trans.dataPtr.getD [])]
  else []

/-- The writes of a sequence that were answered OK, in order. -/
def okWrites (r : BusRouter) : List MemoryTlm → List (Payload × Nat) → List (Block UInt8)
  | _, [] => []
  | mems, t :: ts =>
    let out := r.bTransport socket mems t.1 t.2
    written t.1 out.2.1 ++ okWrites r out.1 ts

section
variable {r : BusRouter} {mems : List MemoryTlm} {trans : Payload} {buf : List UInt8} {delay : Nat}
  {ts : List (Payload × Nat)} {i : Nat} {rg : AddressRange} {m : MemoryTlm}

theorem Hit.fits (h : Bound r mems) (hit : Hit r mems trans i rg m) (hb : trans.HasBuffer buf) :
    trans.address.toNat - rg.base.toNat + buf.length ≤ m.data.length := by
  have h1 := hit.inside.1
  have h2 := hit.span
  rw [h.length hit.range hit.mem, hb.2]
  omega

theorem map_readOnly_store (hm : mems[i]? = some m) (off : Nat) (src : List UInt8) :
    (mems.set i (m.store off src)).map MemoryTlm.readOnly = mems.map MemoryTlm.readOnly :=
  map_set_self _ hm (m.store_readOnly off src)

/-- One transaction: the address map stays bound, no memory turns from RAM to ROM or back, and the flat
store takes exactly the accepted write. -/
theorem flat_step (h : Bound r mems) (hb : trans.HasBuffer buf) (delay : Nat) :
    let out := r.bTransport socket mems trans delay
    Bound r out.1 ∧ out.1.map MemoryTlm.readOnly = mems.map MemoryTlm.readOnly ∧
      flat r out.1 = (flat r mems).writes (written trans out.2.1) := by
  rcases bTransport_cases h hb delay with
    ⟨i, rg, m, d, hit, hc, he⟩ | ⟨i, rg, m, d, hit, hc, hro, he⟩ | ⟨hn, st, d, hst, he⟩
  · simp [he, h, written, hc]
  · have hin := hit.inside.1
    rw [he]
    refine ⟨h.store hit.mem _ _, map_readOnly_store hit.mem _ _, ?_⟩
    rw [h.flat_store hit.range hit.mem (hit.fits h hb), Nat.add_sub_cancel' hin]
    simp [written, hc, hb.1]
  · simp [he, h, written, hst]

theorem flat_run (h : Bound r mems) (hts : ∀ t ∈ ts, ∃ buf, t.1.HasBuffer buf) :
    Bound r (run r mems ts) ∧
      (run r mems ts).map MemoryTlm.readOnly = mems.map MemoryTlm.readOnly ∧
      flat r (run r mems ts) = (flat r mems).writes (okWrites r mems ts) := by
  induction ts generalizing mems with
  | nil => exact ⟨h, rfl, rfl⟩
  | cons t ts ih =>
    obtain ⟨buf, hb⟩ := hts t (by simp)
    obtain ⟨h1, hro, hf⟩ := flat_step h hb t.2
    obtain ⟨h2, hro', hf'⟩ := ih h1 fun u hu => hts u (by simp [hu])
    refine ⟨h2, hro'.trans hro, ?_⟩
    rw [okWrites, Store.writes_append, ← hf]
    exact hf'

theorem getElem?_readOnly {ms : List MemoryTlm} {m' : MemoryTlm}
    (h : ms.map MemoryTlm.readOnly = mems.map MemoryTlm.readOnly) (hm : ms[i]? = some m)
    (hm' : mems[i]? = some m') : m.readOnly = m'.readOnly := by
  have := congrArg (fun l => l[i]?) h
  simpa [hm, hm'] using this

/-- An access is served after a run iff it is served before it: the address map and the kinds of the
memories are fixed. -/
theorem served_congr {ms : List MemoryTlm} (h' : Bound r ms)
    (hro : ms.map MemoryTlm.readOnly = mems.map MemoryTlm.readOnly) (hs : Served r mems trans) :
    Served r ms trans := by
  obtain ⟨i, rg, m, hit, ha⟩ := hs
  obtain ⟨m', hm', -⟩ := h'.mem hit.range
  refine ⟨i, rg, m', ⟨hit.range, hm', hit.live, hit.inside, hit.span⟩, ?_⟩
  rwa [MemoryTlm.Allows, getElem?_readOnly hro hm' hit.mem]

end

/-- A router over memories is one flat byte store. After any sequence of transactions, the next one is
answered OK iff it lies in one region that allows it; a read then returns the bytes last stored by
accepted writes, or the initial ones; a write changes its span in one memory and nothing else; every
other transaction changes nothing; and the payload's address comes back unchanged. -/
theorem bus_refines_flat_store (r : BusRouter) (mems : List MemoryTlm) (h : Bound r mems)
    (hlive : ∀ rg ∈ r.ranges, rg.Live) (ts : List (Payload × Nat))
    (hts : ∀ t ∈ ts, ∃ buf, t.1.HasBuffer buf) (trans : Payload) (buf : List UInt8)
    (hb : trans.HasBuffer buf) (delay : Nat) :
    let ms := run r mems ts
    let out := r.bTransport socket ms trans delay
    let addr := trans.address.toNat
    let len := trans.dataLength.toNat
    (out.2.1.responseStatus = .ok ↔ ∃ (i : Nat) (rg : AddressRange) (m : MemoryTlm),
      r.ranges[i]? = some rg ∧ mems[i]? = some m ∧
      rg.Mem addr ∧ addr + len ≤ rg.base.toNat + rg.size.toNat ∧
      (trans.command = .read ∨ trans.command = .write ∧ m.readOnly = false)) ∧
    (out.2.1.responseStatus = .ok → trans.command = .read → ∃ bytes : List UInt8,
      out.2.1.dataPtr = some bytes ∧ bytes.length = len ∧ ∀ j < len, ∃ b, bytes[j]? = some b ∧
        (lastByte (okWrites r mems ts) (addr + j)).or (flat r mems (addr + j)) = some b) ∧
    (out.2.1.responseStatus = .ok → trans.command = .write →
      ∃ (i : Nat) (rg : AddressRange) (m m' : MemoryTlm), r.ranges[i]? = some rg ∧ ms[i]? = some m ∧
        rg.Mem addr ∧ addr + len ≤ rg.base.toNat + rg.size.toNat ∧
        out.1 = ms.set i m' ∧ m'.data.length = m.data.length ∧ ∀ k, m'.data[k]? =
          if addr ≤ rg.base.toNat + k ∧ rg.base.toNat + k < addr + len then
            buf[rg.base.toNat + k - addr]?
          else m.data[k]?) ∧
    (¬ (out.2.1.responseStatus = .ok ∧ trans.command = .write) → out.1 = ms) ∧
    out.2.1.address = trans.address := by
  intro ms out addr len
  obtain ⟨hms, hro, hflat⟩ := flat_run h hts
  have hserved : Served r ms trans ↔ ∃ (i : Nat) (rg : AddressRange) (m : MemoryTlm),
      r.ranges[i]? = some rg ∧ mems[i]? = some m ∧
      rg.Mem addr ∧ addr + len ≤ rg.base.toNat + rg.size.toNat ∧
      (trans.command = .read ∨ trans.command = .write ∧ m.readOnly = false) := by
    constructor
    · intro hs
      obtain ⟨i, rg, m, hit, ha⟩ := served_congr h hro.symm hs
      exact ⟨i, rg, m, hit.range, hit.mem, hit.inside, hit.span, ha⟩
    · rintro ⟨i, rg, m, hr, hm, hin, hsp, ha⟩
      exact served_congr hms hro
        ⟨i, rg, m, ⟨hr, hm, hlive rg (List.mem_of_getElem? hr), hin, hsp⟩, ha⟩
  rw [← hserved]
  rcases bTransport_cases hms hb delay with
    ⟨i, rg, m, d, hit, hc, he⟩ | ⟨i, rg, m, d, hit, hc, hmro, he⟩ | ⟨hn, st, d, hst, he⟩
  · have hout : out = _ := he
    refine ⟨?_, ?_, ?_, ?_, by rw [hout]⟩ <;> rw [hout]
    · exact iff_of_true rfl ⟨i, rg, m, hit, .inl hc⟩
    · have hin := hit.inside.1
      have hlen := hms.length hit.range hit.mem
      have hsp := hit.span
      refine fun _ _ => ⟨_, rfl, m.length_slice (by omega), ?_⟩
      intro j hj
      have hj' : addr - rg.base.toNat + j < m.data.length := by omega
      refine ⟨m.data[addr - rg.base.toNat + j], ?_, ?_⟩
      · rw [m.getElem?_slice hj]; exact List.getElem?_eq_getElem hj'
      · rw [← Store.writes_apply, ← hflat,
          hms.flat_of_mem hit.range hit.mem ⟨by omega, by omega⟩,
          show addr + j - rg.base.toNat = addr - rg.base.toNat + j by omega]
        exact List.getElem?_eq_getElem hj'
    · intro _ hw; rw [hc] at hw; cases hw
    · intro _; rfl
  · have hout : out = _ := he
    have hfit := hit.fits hms hb
    refine ⟨?_, ?_, ?_, ?_, by rw [hout]⟩ <;> rw [hout]
    · exact iff_of_true rfl ⟨i, rg, m, hit, .inr ⟨hc, hmro⟩⟩
    · intro _ hr; rw [hc] at hr; cases hr
    · refine fun _ _ => ⟨i, rg, m, _, hit.range, hit.mem, hit.inside, hit.span, rfl,
        m.length_store _ _, fun k => ?_⟩
      have hin := hit.inside.1
      have hl : buf.length = len := hb.2
      rw [m.store_data hfit, getElem?_blit hfit, hl]
      have hk : addr - rg.base.toNat ≤ k ∧ k < addr - rg.base.toNat + len ↔
          addr ≤ rg.base.toNat + k ∧ rg.base.toNat + k < addr + len := by omega
      simp only [addr] at hk ⊢
      simp only [hk, show k - (trans.address.toNat - rg.base.toNat) =
        rg.base.toNat + k - trans.address.toNat by omega]
    · intro hne; exact absurd ⟨rfl, hc⟩ hne
  · have hout : out = _ := he
    refine ⟨?_, ?_, ?_, ?_, by rw [hout]⟩ <;> rw [hout]
    · exact iff_of_false hst hn
    · exact fun hok => absurd hok hst
    · exact fun hok => absurd hok hst
    · intro _; rfl

/-- A RAM at `[0x10, 0x14)` with a ROM right after it. -/
def twoBanks : BusRouter := ⟨[⟨0x10, 4⟩, ⟨0x14, 4⟩], 2, by decide⟩

def twoBanksMems : List MemoryTlm :=
  [⟨[0, 0, 0, 0], false, 10000, by decide⟩, ⟨[1, 2, 3, 4], true, 10000, by decide⟩]

theorem twoBanks_bound : Bound twoBanks twoBanksMems := by
  refine ⟨by decide, ?_⟩
  simp only [twoBanks, List.pairwise_cons, List.mem_cons, List.not_mem_nil, or_false, forall_eq,
    AddressRange.Mem, false_implies, implies_true, List.Pairwise.nil, and_true, UInt64.reduceToNat]
  intro x
  omega

theorem bus_refines_flat_store_twoBanks :
    let w : Payload := ⟨.write, 0x11, some [7, 8, 9], 3, .incomplete, false⟩
    let ms := run twoBanks twoBanksMems [(w, 0)]
    let out := twoBanks.bTransport socket ms ⟨.read, 0x12, some [0, 0], 2, .incomplete, false⟩ 0
    ∃ bytes : List UInt8, out.2.1.dataPtr = some bytes ∧ bytes.length = 2 ∧ ∀ j < 2, ∃ b,
      bytes[j]? = some b ∧ (lastByte (okWrites twoBanks twoBanksMems [(w, 0)]) (0x12 + j)).or
        (flat twoBanks twoBanksMems (0x12 + j)) = some b :=
  (bus_refines_flat_store twoBanks twoBanksMems twoBanks_bound
    (by simp [twoBanks, AddressRange.Live]) [(⟨.write, 0x11, some [7, 8, 9], 3, .incomplete, false⟩, 0)]
    (by simp [Payload.HasBuffer]) ⟨.read, 0x12, some [0, 0], 2, .incomplete, false⟩ [0, 0]
    (by simp [Payload.HasBuffer]) 0).2.1 (by decide) rfl

end MemoryBus
end CdcVp
