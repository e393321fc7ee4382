import CdcVp.BusRoute
import CdcVp.ClintBounds
import CdcVp.IrqEdges
import CdcVp.Memory

/-!
# `riscv_custom_soc`

RAM, UART, CLINT, PLIC and I2C behind one router, the I2C's interrupt line on source 1 of the PLIC and both
controllers on one CPU. The UART and the I2C are IP from elsewhere: `Ip` is whatever they do on a transaction, and
their own processes may change them at any time. `machine` is the platform as the CPU's buses, the I2C's line and
the kernel drive it; `Served` says where a transaction goes.
-/

namespace CdcVp
open Runs

/-- The IP blocks: their `b_transport` and `transport_dbg`. -/
structure Ip (υ ι : Type*) where
  uart : BSocket υ
  i2c : BSocket ι
  uartDbg : DbgSocket υ
  i2cDbg : DbgSocket ι

/-- Blocks that answer OK and do nothing. -/
def Ip.idle : Ip Unit Unit where
  uart u t d := (u, { t with responseStatus := .ok }, d)
  i2c u t d := (u, { t with responseStatus := .ok }, d)
  uartDbg u t := (u, { t with responseStatus := .ok }, t.dataLength)
  i2cDbg u t := (u, { t with responseStatus := .ok }, t.dataLength)

namespace AddressRange

theorem contains_iff_mem (rg : AddressRange) (h : rg.base.toNat + rg.size.toNat < 2 ^ 64) (a : UInt64) :
    rg.contains a = true ↔ rg.Mem a.toNat :=
  (rg.contains_iff a).trans (and_iff_right h)

/-- An address is in one of two regions that do not meet. -/
theorem not_contains {rg rg' : AddressRange} {a : UInt64} (h : rg.contains a = true)
    (hap : rg.base.toNat + rg.size.toNat ≤ rg'.base.toNat ∨ rg'.base.toNat + rg'.size.toNat ≤ rg.base.toNat) :
    ¬ rg'.contains a = true := by
  intro h'
  obtain ⟨-, hlo, hhi⟩ := (rg.contains_iff a).1 h
  obtain ⟨-, hlo', hhi'⟩ := (rg'.contains_iff a).1 h'
  omega

end AddressRange

/-- The CPU after further calls of `set_irq`. -/
def IrqPort.drive (c : IrqPort) (calls : List IrqCall) : IrqPort := ⟨c.calls ++ calls⟩

namespace RiscvCustomSoc

def kRamBase : UInt64 := 0x80000000
def kRamSize : UInt64 := 0x10000
def kUartBase : UInt64 := 0x10000000
def kClintBase : UInt64 := 0x02000000
def kClintSize : UInt64 := 0x10000
def kPlicBase : UInt64 := 0x0C000000
def kPlicSize : UInt64 := 0x400000
def kI2cBase : UInt64 := 0x10010000
def kRegionSize : UInt64 := 0x1000
abbrev kNumPlicSources : Nat := 1

def ramRange : AddressRange := ⟨kRamBase, kRamSize⟩
def uartRange : AddressRange := ⟨kUartBase, kRegionSize⟩
def clintRange : AddressRange := ⟨kClintBase, kClintSize⟩
def plicRange : AddressRange := ⟨kPlicBase, kPlicSize⟩
def i2cRange : AddressRange := ⟨kI2cBase, kRegionSize⟩

end RiscvCustomSoc

open RiscvCustomSoc in
/-- `riscv_custom_soc_top::impl`. `cpu` is what the controllers have driven on the CPU, whichever the backend; the
RAM has its size and is writable. -/
structure RiscvCustomSoc (υ ι : Type*) where
  cpu : IrqPort
  ram : MemoryTlm
  uart : υ
  clint : Clint
  plic : Plic kNumPlicSources
  i2c : ι
  ram_size : ram.data.length = kRamSize.toNat
  ram_writable : ram.readOnly = false

namespace RiscvCustomSoc
variable {υ ι : Type*}

/-- The router, its regions in the order of the `add_target` calls (`BusRouter.addTarget_ranges`). -/
def bus : BusRouter where
  ranges := [ramRange, uartRange, clintRange, plicRange, i2cRange]
  sockets := 5
  ranges_le := by decide

/-- The platform at the start of simulation: RAM zeroed, the controllers reset, the interrupt line low. -/
def new (uart : υ) (i2c : ι) : RiscvCustomSoc υ ι where
  cpu := {}
  ram := { data := List.replicate 0x10000 0, readOnly := false, accessLatency := 10000,
           size_lt := by rw [List.length_replicate]; decide }
  uart := uart
  clint := Clint.new
  plic := Plic.new (Vector.replicate kNumPlicSources false)
  i2c := i2c
  ram_size := List.length_replicate
  ram_writable := rfl

section
variable (s : RiscvCustomSoc υ ι)

/-- The CLINT has moved, and what it drove reaches the CPU. -/
def withClint (c : Clint) : RiscvCustomSoc υ ι :=
  { s with clint := c, cpu := s.cpu.drive (c.cpu.since s.clint.cpu) }

def withPlic (p : Plic kNumPlicSources) : RiscvCustomSoc υ ι :=
  { s with plic := p, cpu := s.cpu.drive (p.cpu.since s.plic.cpu) }

/-- The RAM after a `memcpy` to it or none. -/
def withRam (m : MemoryTlm) (h : m = s.ram ∨ ∃ off src, m = s.ram.store off src) : RiscvCustomSoc υ ι :=
  { s with
    ram := m
    ram_size := by rcases h with rfl | ⟨off, src, rfl⟩ <;> simp [s.ram_size]
    ram_writable := by rcases h with rfl | ⟨off, src, rfl⟩ <;> simp [s.ram_writable] }

end

/-- What is bound to socket `i` of the router. The state is `none` once a target has copied past its register. -/
def socket (ip : Ip υ ι) (i : Nat) : BSocket (Option (RiscvCustomSoc υ ι)) := fun s t d =>
  match s with
  | none => (none, t, d)
  | some s =>
    match i with
    | 0 => (some (s.withRam (s.ram.bTransport t d).1 (s.ram.bTransport_fst t d)), (s.ram.bTransport t d).2)
    | 1 => (some { s with uart := (ip.uart s.uart t d).1 }, (ip.uart s.uart t d).2)
    | 2 => ((s.clint.bTransport t d).map fun r => s.withClint r.1, ((s.clint.bTransport t d).map Prod.snd).getD (t, d))
    | 3 => (some (s.withPlic (s.plic.bTransport t d).1), (s.plic.bTransport t d).2)
    | _ => (some { s with i2c := (ip.i2c s.i2c t d).1 }, (ip.i2c s.i2c t d).2)

/-- A blocking transaction from one of the CPU's buses. Each is bound to a port of the router, and all ports share
its `b_transport`. -/
def bTransport (ip : Ip υ ι) (s : RiscvCustomSoc υ ι) (t : Payload) (d : Nat) :
    Option (RiscvCustomSoc υ ι × Payload × Nat) :=
  let r := bus.bTransport (socket ip) (some s) t d
  r.1.map fun s => (s, r.2)

/-- A move of the kernel: for the timer of the CLINT, its clock and its event. -/
inductive Kernel
  | start
  | wake
  | delta
  | advance (time : UInt64)
  | expire

def Kernel.op : Kernel → Clint.Op
  | start => .start
  | wake => .wake
  | delta => .delta
  | advance time => .advance time
  | expire => .expire

/-- A transaction from the CPU, a new value of `i2c_irq`, `on_sources`, a move of the kernel, or a process of one of
the IP blocks. -/
inductive Op (υ ι : Type*)
  | transport (trans : Payload) (delay : Nat)
  | i2cIrq (level : Bool)
  | onSources
  | kernel (move : Kernel)
  | uart (s : υ)
  | i2c (s : ι)

/-- What is observed is the payload that the CPU gets back. Time does not advance while `on_sources` is due. -/
def machine (ip : Ip υ ι) : Machine (RiscvCustomSoc υ ι) (Op υ ι) Payload := fun s op =>
  match op with
  | .transport t d => (s.bTransport ip t d).map fun r => (r.1, [r.2.1])
  | .i2cIrq level =>
    (Plic.machine kNumPlicSources s.plic (.lines (Vector.replicate kNumPlicSources level))).map fun r =>
      (s.withPlic r.1, [])
  | .onSources => (Plic.machine kNumPlicSources s.plic .onSources).map fun r => (s.withPlic r.1, [])
  | .kernel move =>
    if move.op.isAdvance ∧ s.plic.onSourcesReady then none
    else (Clint.machine s.clint move.op).map fun r => (s.withClint r.1, [])
  | .uart u => some ({ s with uart := u }, [])
  | .i2c u => some ({ s with i2c := u }, [])

/-! ### The memory map -/

section
variable {ip : Ip υ ι} {s s' : RiscvCustomSoc υ ι} {t : Payload} {d : Nat} {a : UInt64}

theorem contains_ram : ramRange.contains a = true ↔ 0x80000000 ≤ a.toNat ∧ a.toNat < 0x80010000 :=
  ramRange.contains_iff_mem (by decide) a

theorem contains_uart : uartRange.contains a = true ↔ 0x10000000 ≤ a.toNat ∧ a.toNat < 0x10001000 :=
  uartRange.contains_iff_mem (by decide) a

theorem contains_clint : clintRange.contains a = true ↔ 0x02000000 ≤ a.toNat ∧ a.toNat < 0x02010000 :=
  clintRange.contains_iff_mem (by decide) a

theorem contains_i2c : i2cRange.contains a = true ↔ 0x10010000 ≤ a.toNat ∧ a.toNat < 0x10011000 :=
  i2cRange.contains_iff_mem (by decide) a

end

/-- The payload as the initiator gets it back: the router restores the address. -/
def answer (t : Payload) (r : Payload × Nat) : Payload × Nat := ({ r.1 with address := t.address }, r.2)

/-- Where a transaction goes: to the one component whose region has its address, which takes it at the address
less the base, or to none. All else stays. -/
inductive Served (ip : Ip υ ι) (s : RiscvCustomSoc υ ι) (t : Payload) (d : Nat) :
    RiscvCustomSoc υ ι × Payload × Nat → Prop
  | ram (h : ramRange.contains t.address = true) :
    Served ip s t d (s.withRam (s.ram.bTransport (ramRange.toLocal t) d).1 (s.ram.bTransport_fst _ d),
      answer t (s.ram.bTransport (ramRange.toLocal t) d).2)
  | uart (h : uartRange.contains t.address = true) :
    Served ip s t d ({ s with uart := (ip.uart s.uart (uartRange.toLocal t) d).1 },
      answer t (ip.uart s.uart (uartRange.toLocal t) d).2)
  | clint (h : clintRange.contains t.address = true) (r : Clint × Payload × Nat)
      (hr : s.clint.bTransport (clintRange.toLocal t) d = some r) :
    Served ip s t d (s.withClint r.1, answer t r.2)
  | plic (h : plicRange.contains t.address = true) :
    Served ip s t d (s.withPlic (s.plic.bTransport (plicRange.toLocal t) d).1,
      answer t (s.plic.bTransport (plicRange.toLocal t) d).2)
  | i2c (h : i2cRange.contains t.address = true) :
    Served ip s t d ({ s with i2c := (ip.i2c s.i2c (i2cRange.toLocal t) d).1 },
      answer t (ip.i2c s.i2c (i2cRange.toLocal t) d).2)
  | unmapped (h : ∀ rg ∈ bus.ranges, rg.contains t.address = false) :
    Served ip s t d (s, { t with responseStatus := .addressError }, d)

/-- The regions of the memory map. -/
inductive Region
  | ram
  | uart
  | clint
  | plic
  | i2c

namespace Region

def range : Region → AddressRange
  | ram => ramRange
  | uart => uartRange
  | clint => clintRange
  | plic => plicRange
  | i2c => i2cRange

/-- What the component of a region makes of a transaction, at the address less the base. -/
def Takes (ip : Ip υ ι) (s : RiscvCustomSoc υ ι) (t : Payload) (d : Nat) :
    Region → RiscvCustomSoc υ ι × Payload × Nat → Prop
  | ram, r => r = (s.withRam (s.ram.bTransport (ramRange.toLocal t) d).1 (s.ram.bTransport_fst _ d),
      answer t (s.ram.bTransport (ramRange.toLocal t) d).2)
  | uart, r => r = ({ s with uart := (ip.uart s.uart (uartRange.toLocal t) d).1 },
      answer t (ip.uart s.uart (uartRange.toLocal t) d).2)
  | clint, r => ∃ c, s.clint.bTransport (clintRange.toLocal t) d = some c ∧ r = (s.withClint c.1, answer t c.2)
  | plic, r => r = (s.withPlic (s.plic.bTransport (plicRange.toLocal t) d).1,
      answer t (s.plic.bTransport (plicRange.toLocal t) d).2)
  | i2c, r => r = ({ s with i2c := (ip.i2c s.i2c (i2cRange.toLocal t) d).1 },
      answer t (ip.i2c s.i2c (i2cRange.toLocal t) d).2)

end Region

section
variable {ip : Ip υ ι} {s s' : RiscvCustomSoc υ ι} {t : Payload} {d : Nat} {a : UInt64} {op : Op υ ι}
  {o : List Payload}

/-- The CLINT's region ends far below `2 ^ 64`, so no transaction that reaches it copies past a register. -/
theorem clint_defined (c : Clint) (h : clintRange.contains t.address = true) (d : Nat) :
    ∃ r, c.bTransport (clintRange.toLocal t) d = some r := by
  have ha := contains_clint.1 h
  have hlen := t.dataLength.toNat_lt
  have haddr : (clintRange.toLocal t).address.toNat = t.address.toNat - 0x02000000 :=
    UInt64.toNat_sub_of_le _ _ (UInt64.le_iff_toNat_le.2 ha.1)
  have hwrap : ¬ Clint.WrapsBelow (clintRange.toLocal t) := by
    rintro ⟨hge, -⟩
    rw [haddr, AddressRange.toLocal_dataLength] at hge
    omega
  exact Clint.bTransport_defined hwrap c d

/-- Every transaction is answered, by the component at its address. -/
theorem bTransport_served (ip : Ip υ ι) (s : RiscvCustomSoc υ ι) (t : Payload) (d : Nat) :
    ∃ r, s.bTransport ip t d = some r ∧ Served ip s t d r := by
  rcases bus.bTransport_cases (socket ip) (some s) t d with ⟨i, rg, hd, he⟩ | ⟨hno, he⟩
  · have hget := hd.get
    have hlt : i < 5 := (List.getElem?_eq_some_iff.1 hget).1
    match i, hlt with
    | 0, _ =>
      obtain rfl : ramRange = rg := Option.some.inj hget
      exact ⟨_, by rw [bTransport, he]; rfl, .ram hd.contains⟩
    | 1, _ =>
      obtain rfl : uartRange = rg := Option.some.inj hget
      exact ⟨_, by rw [bTransport, he]; rfl, .uart hd.contains⟩
    | 2, _ =>
      obtain rfl : clintRange = rg := Option.some.inj hget
      obtain ⟨r, hr⟩ := clint_defined s.clint hd.contains d
      refine ⟨_, ?_, .clint hd.contains r hr⟩
      rw [AddressRange.toLocal] at hr
      rw [bTransport, he]
      simp only [socket, hr, Option.map_some, Option.getD_some]
      rfl
    | 3, _ =>
      obtain rfl : plicRange = rg := Option.some.inj hget
      exact ⟨_, by rw [bTransport, he]; rfl, .plic hd.contains⟩
    | 4, _ =>
      obtain rfl : i2cRange = rg := Option.some.inj hget
      exact ⟨_, by rw [bTransport, he]; rfl, .i2c hd.contains⟩
  · exact ⟨_, by rw [bTransport, he]; rfl, .unmapped hno⟩

namespace Region

theorem range_mem (g : Region) : g.range ∈ bus.ranges := by
  cases g <;> simp [Region.range, bus]

/-- The regions do not meet. -/
theorem eq_of_contains {g g' : Region} (h : g.range.contains a = true) (h' : g'.range.contains a = true) : g = g' := by
  by_contra hne
  refine AddressRange.not_contains h ?_ h'
  cases g <;> cases g' <;> first | exact absurd rfl hne | decide

end Region

namespace Served
variable {r : RiscvCustomSoc υ ι × Payload × Nat}

/-- The initiator gets its address back. -/
theorem address (h : Served ip s t d r) : r.2.1.address = t.address := by
  cases h <;> rfl

/-- A transaction at an address of a region goes to the component of it. -/
theorem takes (h : Served ip s t d r) (g : Region) (hc : g.range.contains t.address = true) :
    g.Takes ip s t d r := by
  rcases h with h | h | ⟨h, c, hr⟩ | h | h | h
  · obtain rfl : g = .ram := Region.eq_of_contains hc h
    exact rfl
  · obtain rfl : g = .uart := Region.eq_of_contains hc h
    exact rfl
  · obtain rfl : g = .clint := Region.eq_of_contains hc h
    exact ⟨c, hr, rfl⟩
  · obtain rfl : g = .plic := Region.eq_of_contains hc h
    exact rfl
  · obtain rfl : g = .i2c := Region.eq_of_contains hc h
    exact rfl
  · rw [h _ g.range_mem] at hc
    cases hc

end Served

end

end RiscvCustomSoc
end CdcVp
