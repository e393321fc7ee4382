import CdcVp.ElfTarget
import CdcVp.SocMemory

/-!
# Booting the platform

`load_elf` on the platform's debug transport, as the CPU wrappers run it at the start of simulation. The loader
reaches the RAM and the IP blocks only (`SameControllers`), a segment in the RAM is stored whole or the loader
throws, and what runs afterwards finds each byte of the image until it is stored over.
-/

namespace CdcVp
open ExceptState FlatStore Runs

/-- `start_of_simulation` of a CPU wrapper: load the firmware, if there is one, and set the PC to the low half of
the entry point. -/
def startOfSimulation {σ : Type} (dataBus : DbgSocket σ) (elfPath : String) (file : Option Image) :
    LoadM σ (Option UInt32) := do
  if elfPath.isEmpty then return none
  let entryPc ← loadElf dataBus elfPath file
  return some entryPc.toUInt32

namespace RiscvCustomSoc
variable {υ ι : Type} {ip : Ip υ ι} {s s' s₀ : RiscvCustomSoc υ ι} {t : Payload} {buf : List UInt8}
  {ws : List (Block UInt8)} {w : Block UInt8}

/-- The debug transport bound to socket `i`. The controllers register none, and their sockets count nothing. -/
def dbgSocket (ip : Ip υ ι) (i : Nat) : DbgSocket (RiscvCustomSoc υ ι) := fun s t =>
  match i with
  | 0 => (s.withRam (s.ram.transportDbg t).1 (s.ram.transportDbg_fst t), (s.ram.transportDbg t).2)
  | 1 => ({ s with uart := (ip.uartDbg s.uart t).1 }, (ip.uartDbg s.uart t).2)
  | 2 => (s, t, 0)
  | 3 => (s, t, 0)
  | _ => ({ s with i2c := (ip.i2cDbg s.i2c t).1 }, (ip.i2cDbg s.i2c t).2)

def transportDbg (ip : Ip υ ι) : DbgSocket (RiscvCustomSoc υ ι) := bus.transportDbg (dbgSocket ip)

/-- The controllers are as they were, and nothing was driven on the CPU. -/
structure SameControllers (s s' : RiscvCustomSoc υ ι) : Prop where
  cpu : s'.cpu = s.cpu
  clint : s'.clint = s.clint
  plic : s'.plic = s.plic

/-- The block starts in the RAM. -/
def ramBlock (w : Block UInt8) : Bool := 0x80000000 ≤ w.1 ∧ w.1 < 0x80010000

/-- Where a block can be sent: it lies in the RAM, whole, an IP block takes it, or it has no bytes. -/
inductive Placed (w : Block UInt8) : Prop
  | ram (lo : 0x80000000 ≤ w.1) (hi : w.1 + w.2.length ≤ 0x80010000)
  | uart (lo : 0x10000000 ≤ w.1) (hi : w.1 < 0x10001000)
  | i2c (lo : 0x10010000 ≤ w.1) (hi : w.1 < 0x10011000)
  | empty (h : w.2 = [])

/-- The platform once `ws` has been sent to it. -/
structure Loaded (s : RiscvCustomSoc υ ι) (ws : List (Block UInt8)) (s' : RiscvCustomSoc υ ι) : Prop where
  controllers : SameControllers s s'
  ram : s'.ramStore = s.ramStore.writes (ws.filter ramBlock)
  placed : ∀ w ∈ ws, Placed w

/-! ### One debug write -/

theorem Loaded.snoc (h : Loaded s₀ ws s) (hc : SameControllers s s')
    (hram : s'.ramStore = s.ramStore.writes ([w].filter ramBlock)) (hw : Placed w) :
    Loaded s₀ (ws ++ [w]) s' where
  controllers := ⟨hc.cpu.trans h.controllers.cpu, hc.clint.trans h.controllers.clint,
    hc.plic.trans h.controllers.plic⟩
  ram := by rw [hram, h.ram, List.filter_append, Store.writes_append]
  placed := by
    rw [List.forall_mem_append, List.forall_mem_singleton]
    exact ⟨h.placed, hw⟩

theorem ramStore_store {off : Nat} {src : List UInt8} (s : RiscvCustomSoc υ ι)
    (hf : off + src.length ≤ s.ram.data.length)
    (h : s.ram.store off src = s.ram ∨ ∃ off' src', s.ram.store off src = s.ram.store off' src') :
    (s.withRam (s.ram.store off src) h).ramStore = s.ramStore.write (0x80000000 + off, src) := by
  rw [ramStore, withRam]
  dsimp only
  rw [MemoryTlm.store_data _ hf]
  funext x
  exact byteAt_blit hf x

theorem filter_ramBlock (buf : List UInt8) (h : ¬ ramRange.contains t.address = true) :
    [(t.address.toNat, buf)].filter ramBlock = [] := by
  rw [contains_ram] at h
  exact List.filter_cons_of_neg (Bool.eq_false_iff.1 (decide_eq_false h))

/-- A debug write of the RAM that is counted in full stores the buffer, which lies in the RAM. -/
theorem transportDbg_ram (hb : t.HasBuffer buf) (hw : t.command = .write)
    (hc : ramRange.contains t.address = true) (s : RiscvCustomSoc υ ι) :
    (s.ram.transportDbg (ramRange.toLocal t)).2.2 = t.dataLength → Placed (t.address.toNat, buf) ∧
      (s.withRam (s.ram.transportDbg (ramRange.toLocal t)).1 (s.ram.transportDbg_fst _)).ramStore =
        s.ramStore.writes ([(t.address.toNat, buf)].filter ramBlock) := by
  intro hn
  obtain ⟨hlo, hhi⟩ := contains_ram.1 hc
  have hsize : s.ram.data.length = 0x10000 := s.ram_size
  have haddr := toNat_ram hc
  have hlen := hb.2
  have hlocal : (ramRange.toLocal t).HasBuffer buf := hb
  have hkeep : [(t.address.toNat, buf)].filter ramBlock = [(t.address.toNat, buf)] :=
    List.filter_cons_of_pos (decide_eq_true ⟨hlo, hhi⟩)
  rcases s.ram.transportDbg_write hlocal hw with ⟨hin, -, n, hn', he⟩ | ⟨hno, -⟩
  · have hfull : n = t.dataLength := by rw [← hn, he]
    subst hfull
    rw [haddr, hsize] at hn'
    have hfit : t.address.toNat - 0x80000000 + buf.length ≤ s.ram.data.length := by omega
    refine ⟨.ram hlo (by dsimp only; omega), ?_⟩
    have hall : buf.take t.dataLength.toNat = buf := by rw [← hlen, List.take_length]
    rw [haddr, hall] at he
    simp only [he]
    rw [ramStore_store s hfit, hkeep, Nat.add_sub_cancel' hlo]
    rfl
  · rw [haddr, hsize] at hno
    exact absurd ⟨by omega, s.ram_writable⟩ hno

/-- A debug write counted in full places its buffer; any debug write leaves the controllers. -/
theorem transportDbg_step (ip : Ip υ ι) (h : Loaded s₀ ws s) (hw : t.command = .write) (hb : t.HasBuffer buf) :
    if (transportDbg ip s t).2.2 = t.dataLength then
      Loaded s₀ (ws ++ [(t.address.toNat, buf)]) (transportDbg ip s t).1
    else SameControllers s₀ (transportDbg ip s t).1 := by
  have hempty (hn : 0 = t.dataLength) : buf = [] := by
    rw [← List.length_eq_zero_iff, hb.2, ← hn]
    rfl
  rw [transportDbg]
  rcases bus.transportDbg_cases (dbgSocket ip) s t with ⟨i, rg, hd, he⟩ | ⟨hno, he⟩
  · rw [he]
    have hget := hd.get
    have hlt : i < 5 := (List.getElem?_eq_some_iff.1 hget).1
    match i, hlt with
    | 0, _ =>
      obtain rfl : ramRange = rg := Option.some.inj hget
      split
      · rename_i hn
        obtain ⟨hp, hram⟩ := transportDbg_ram hb hw hd.contains s hn
        exact h.snoc ⟨rfl, rfl, rfl⟩ hram hp
      · exact ⟨h.controllers.cpu, h.controllers.clint, h.controllers.plic⟩
    | 1, _ =>
      obtain rfl : uartRange = rg := Option.some.inj hget
      obtain ⟨hlo, hhi⟩ := contains_uart.1 hd.contains
      have hram := filter_ramBlock buf (AddressRange.not_contains hd.contains (by decide))
      split
      · exact h.snoc ⟨rfl, rfl, rfl⟩ (by rw [hram]; rfl) (.uart hlo hhi)
      · exact ⟨h.controllers.cpu, h.controllers.clint, h.controllers.plic⟩
    | 2, _ =>
      obtain rfl : clintRange = rg := Option.some.inj hget
      have hram := filter_ramBlock buf (AddressRange.not_contains hd.contains (by decide))
      split
      · rename_i hn
        exact h.snoc ⟨rfl, rfl, rfl⟩ (by rw [hram]; rfl) (.empty (hempty hn))
      · exact h.controllers
    | 3, _ =>
      obtain rfl : plicRange = rg := Option.some.inj hget
      have hram := filter_ramBlock buf (AddressRange.not_contains hd.contains (by decide))
      split
      · rename_i hn
        exact h.snoc ⟨rfl, rfl, rfl⟩ (by rw [hram]; rfl) (.empty (hempty hn))
      · exact h.controllers
    | 4, _ =>
      obtain rfl : i2cRange = rg := Option.some.inj hget
      obtain ⟨hlo, hhi⟩ := contains_i2c.1 hd.contains
      have hram := filter_ramBlock buf (AddressRange.not_contains hd.contains (by decide))
      split
      · exact h.snoc ⟨rfl, rfl, rfl⟩ (by rw [hram]; rfl) (.i2c hlo hhi)
      · exact ⟨h.controllers.cpu, h.controllers.clint, h.controllers.plic⟩
  · rw [he]
    have hram := filter_ramBlock buf (Bool.eq_false_iff.1 (hno ramRange (by simp [bus])))
    split
    · rename_i hn
      exact h.snoc ⟨rfl, rfl, rfl⟩ (by rw [hram]; rfl) (.empty (hempty hn))
    · exact h.controllers

/-! ### The firmware -/

/-- The loader on the platform, for any file. -/
theorem loadElf_soc (ip : Ip υ ι) (s : RiscvCustomSoc υ ι) (path : String) (file : Option Image) (log : List Access) :
    Ends (loadElf (transportDbg ip) path file ⟨s, log⟩)
      (fun x (ls : LoadState (RiscvCustomSoc υ ι)) => ∃ b, file = some b ∧ IsElf b ∧
        x = UInt64.ofNat (eEntry b b.is64) ∧ (∀ i < ePhnum b b.is64, ¬ (action b i).Rejects) ∧
        Loaded s (sent b (ePhnum b b.is64)) ls.target)
      (fun _ (ls : LoadState (RiscvCustomSoc υ ι)) => SameControllers s ls.target) := by
  refine loadElf_rule (Loaded s) (SameControllers s) path file ⟨⟨rfl, rfl, rfl⟩, rfl, List.forall_mem_nil _⟩ ?_ ?_
  · exact fun _ _ h => h.controllers
  · exact fun _ _ _ _ h hw hb => transportDbg_step ip h hw hb

/-- The RAM of a new platform is zero. -/
theorem ramStore_new (uart : υ) (i2c : ι) {x : Nat} (h1 : 0x80000000 ≤ x) (h2 : x < 0x80010000) :
    (new uart i2c).ramStore x = some 0 := by
  have hbase : kRamBase.toNat = 0x80000000 := rfl
  rw [ramStore, Block.byteAt, hbase, if_pos h1, new]
  exact List.getElem?_replicate_of_lt (by omega)

/-- The firmware `b` is loaded: the PC is the low half of its entry point, and every segment was placed. In any run
from here a read of the RAM returns at each address the byte last stored there, by the loader or over the bus, and
zero where none was. -/
structure Booted (ip : Ip υ ι) (b : Image) (pc : Option UInt32) (s₀ : RiscvCustomSoc υ ι) : Prop where
  pc : ∃ x, pc = some x ∧ x.toNat = eEntry b b.is64 % 2 ^ 32
  placed : ∀ w ∈ sent b (ePhnum b b.is64), Placed w
  reads (is : List (Op υ ι)) (os : List Payload) (s : RiscvCustomSoc υ ι) (t : Payload) (ptr : List UInt8) (d : Nat) :
    Run (machine ip) s₀ is os s → t.command = .read → t.dataPtr = some ptr → InRam t →
      ∃ bs, s.bTransport ip t d = some (s, { t with
          dataPtr := some bs, dmiAllowed := true, responseStatus := .ok }, d + s.ram.accessLatency) ∧
        ∀ j < t.dataLength.toNat, bs[j]? = some ((lastByte
          ((sent b (ePhnum b b.is64)).filter ramBlock ++ is.flatMap stored) (t.address.toNat + j)).getD 0)

theorem Loaded.booted {b : Image} {uart : υ} {i2c : ι} (h : Loaded (new uart i2c) (sent b (ePhnum b b.is64)) s₀) :
    Booted ip b (some (UInt64.ofNat (eEntry b b.is64)).toUInt32) s₀ where
  pc := by
    refine ⟨_, rfl, ?_⟩
    rw [UInt64.toNat_toUInt32, UInt64.toNat_ofNat']
    exact Nat.mod_mod_of_dvd _ (by decide)
  placed := h.placed
  reads is os s t ptr d hrun hc hp hin := by
    obtain ⟨bs, hbs, hj⟩ := read_ram ip hc hin hp s d
    refine ⟨bs, hbs, fun j hlt => ?_⟩
    have hend := hin.2.2
    rw [hj j hlt, run_ramStore hrun, h.ram, ← Store.writes_append, Store.writes_apply,
      ramStore_new uart i2c (hin.1.trans (Nat.le_add_right _ _)) (by omega)]
    cases lastByte ((sent b (ePhnum b b.is64)).filter ramBlock ++ is.flatMap stored) (t.address.toNat + j) <;> rfl

end RiscvCustomSoc

open RiscvCustomSoc

/-- `load_firmware` on the platform, for any file and any IP blocks. The loader throws, or the firmware is there,
each of its segments in the RAM whole, and stays until it is stored over. Either way both controllers are in their
reset state and no interrupt was driven. -/
theorem riscv_custom_soc_boot {υ ι : Type} (ip : Ip υ ι) (uart : υ) (i2c : ι) (path : String) (file : Option Image) :
    Ends (startOfSimulation (transportDbg ip) path file ⟨new uart i2c, []⟩)
      (fun pc (ls : LoadState (RiscvCustomSoc υ ι)) => SameControllers (new uart i2c) ls.target ∧
        (path.isEmpty = true ∧ pc = none ∧ ls.target = new uart i2c ∨
          ∃ b, file = some b ∧ Booted ip b pc ls.target))
      (fun _ (ls : LoadState (RiscvCustomSoc υ ι)) => SameControllers (new uart i2c) ls.target) := by
  cases hpath : path.isEmpty with
  | true =>
    simp only [startOfSimulation, hpath, if_true]
    exact ⟨⟨rfl, rfl, rfl⟩, .inl ⟨trivial, rfl, rfl⟩⟩
  | false =>
    simp only [startOfSimulation, hpath, Bool.false_eq_true, if_false]
    refine .bind ((loadElf_soc ip (new uart i2c) path file []).mono ?_ fun _ _ h => h)
    rintro x ls ⟨b, hfile, -, rfl, -, hl⟩
    exact ⟨hl.controllers, .inr ⟨b, hfile, hl.booted⟩⟩

end CdcVp
