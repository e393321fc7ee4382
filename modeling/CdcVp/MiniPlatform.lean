import CdcVp.BusRoute
import CdcVp.Memory
import CdcVp.Runs

/-!
# `mini_tlm` and `mini_soc`

Two platforms of one shape: a UART, a device with an interrupt line and a RAM behind a router, and one initiator.
`MiniMap` is what differs, with what the shape asks of it. The UART and the device are IP from elsewhere, whatever
they do.
-/

namespace CdcVp
open Runs

/-- The IP blocks: the `b_transport` of the UART and of the device. -/
structure MiniIp (υ δ : Type*) where
  uart : BSocket υ
  device : BSocket δ

/-- Blocks that answer OK and do nothing. -/
def MiniIp.idle : MiniIp Unit Unit where
  uart u t d := (u, { t with responseStatus := .ok }, d)
  device u t d := (u, { t with responseStatus := .ok }, d)

namespace MiniPlatform

def kUartBase : UInt64 := 0x10000000
def kRamBase : UInt64 := 0x80000000
def kRegionSize : UInt64 := 0x1000

end MiniPlatform

/-- A memory map, and what the initiator says and writes: `arm` are the words for the device, by their offsets. -/
structure MiniMap where
  deviceBase : UInt64
  ramSize : UInt64
  hello : String
  arm : List (UInt64 × UInt32)
  fired : String
  device_above : 0x10001000 ≤ deviceBase.toNat
  device_below : deviceBase.toNat + 0x1000 ≤ 0x80000000
  ram_word : 4 ≤ ramSize.toNat
  ram_end : 0x80000000 + ramSize.toNat < 2 ^ 64
  arm_lt : ∀ w ∈ arm, w.1.toNat < 0x1000

namespace MiniMap
open MiniPlatform

def uartRange (_ : MiniMap) : AddressRange := ⟨kUartBase, kRegionSize⟩
def deviceRange (m : MiniMap) : AddressRange := ⟨m.deviceBase, kRegionSize⟩
def ramRange (m : MiniMap) : AddressRange := ⟨kRamBase, m.ramSize⟩

/-- The router, its regions in the order of the `add_target` calls. -/
def bus (m : MiniMap) : BusRouter where
  ranges := [m.uartRange, m.deviceRange, m.ramRange]
  sockets := 3
  ranges_le := Nat.le_refl 3

variable {m : MiniMap} {a : UInt64}

theorem contains_ram : m.ramRange.contains a = true ↔ 0x80000000 ≤ a.toNat ∧ a.toNat < 0x80000000 + m.ramSize.toNat :=
  (m.ramRange.contains_iff a).trans (and_iff_right m.ram_end)

theorem not_contains_ram (h : a.toNat < 0x80000000) : ¬ m.ramRange.contains a = true := by
  rw [contains_ram]
  omega

theorem contains_uart (h : m.uartRange.contains a = true) : a.toNat < 0x80000000 := by
  obtain ⟨-, -, hlt⟩ := (m.uartRange.contains_iff a).1 h
  have hend : m.uartRange.base.toNat + m.uartRange.size.toNat = 0x10001000 := rfl
  omega

theorem contains_device (h : m.deviceRange.contains a = true) : a.toNat < 0x80000000 := by
  obtain ⟨-, -, hlt⟩ := (m.deviceRange.contains_iff a).1 h
  have hsize : m.deviceRange.size.toNat = 0x1000 := rfl
  have hbase : m.deviceRange.base = m.deviceBase := rfl
  have hle := m.device_below
  rw [hsize, hbase] at hlt
  omega

/-- Where the words for the device go. -/
theorem toNat_arm {w : UInt64 × UInt32} (h : w ∈ m.arm) : (m.deviceBase + w.1).toNat < 0x80000000 := by
  have hw := m.arm_lt w h
  have hle := m.device_below
  rw [UInt64.toNat_add]
  omega

end MiniMap

/-- The platform: `irq` is the device's interrupt line. -/
structure MiniPlatform (m : MiniMap) (υ δ : Type*) where
  ram : MemoryTlm
  uart : υ
  device : δ
  irq : Bool
  ram_size : ram.data.length = m.ramSize.toNat
  ram_writable : ram.readOnly = false

namespace MiniPlatform
variable {m : MiniMap} {υ δ : Type*}

/-- The platform at the start of simulation. -/
def new (m : MiniMap) (uart : υ) (device : δ) : MiniPlatform m υ δ where
  ram := { data := List.replicate m.ramSize.toNat 0, readOnly := false, accessLatency := 10000,
           size_lt := by rw [List.length_replicate]; exact m.ramSize.toNat_lt }
  uart := uart
  device := device
  irq := false
  ram_size := List.length_replicate
  ram_writable := rfl

/-- The RAM after a `memcpy` to it or none. -/
def withRam (s : MiniPlatform m υ δ) (r : MemoryTlm) (h : r = s.ram ∨ ∃ off src, r = s.ram.store off src) :
    MiniPlatform m υ δ :=
  { s with
    ram := r
    ram_size := by rcases h with rfl | ⟨off, src, rfl⟩ <;> simp [s.ram_size]
    ram_writable := by rcases h with rfl | ⟨off, src, rfl⟩ <;> simp [s.ram_writable] }

/-- What is bound to socket `i` of the router. -/
def socket (ip : MiniIp υ δ) (i : Nat) : BSocket (MiniPlatform m υ δ) := fun s t d =>
  match i with
  | 0 => ({ s with uart := (ip.uart s.uart t d).1 }, (ip.uart s.uart t d).2)
  | 1 => ({ s with device := (ip.device s.device t d).1 }, (ip.device s.device t d).2)
  | _ => (s.withRam (s.ram.bTransport t d).1 (s.ram.bTransport_fst t d), (s.ram.bTransport t d).2)

/-- A blocking transaction from the initiator. -/
def bTransport (ip : MiniIp υ δ) : BSocket (MiniPlatform m υ δ) := m.bus.bTransport (socket ip)

/-- A transaction, a change of the interrupt line, or a process of one of the IP blocks. -/
inductive Op (υ δ : Type*)
  | transport (trans : Payload) (delay : Nat)
  | irq (level : Bool)
  | uart (s : υ)
  | device (s : δ)

/-- What is observed is the payload that the initiator gets back. A signal has an event only when it changes. -/
def machine (m : MiniMap) (ip : MiniIp υ δ) : Machine (MiniPlatform m υ δ) (Op υ δ) Payload := fun s op =>
  match op with
  | .transport t d => some ((s.bTransport ip t d).1, [(s.bTransport ip t d).2.1])
  | .irq level => if level = s.irq then none else some ({ s with irq := level }, [])
  | .uart u => some ({ s with uart := u }, [])
  | .device u => some ({ s with device := u }, [])

variable {ip : MiniIp υ δ} {s s' : MiniPlatform m υ δ} {t : Payload} {d : Nat} {op : Op υ δ} {o : List Payload}

/-- A transaction for the RAM. -/
theorem bTransport_ram (h : m.ramRange.contains t.address = true) : s.bTransport ip t d =
    (s.withRam (s.ram.bTransport (m.ramRange.toLocal t) d).1 (s.ram.bTransport_fst _ d),
      { (s.ram.bTransport (m.ramRange.toLocal t) d).2.1 with address := t.address },
      (s.ram.bTransport (m.ramRange.toLocal t) d).2.2) := by
  have hge := (MiniMap.contains_ram.1 h).1
  rcases m.bus.bTransport_cases (socket ip) s t d with ⟨i, rg, hd, he⟩ | ⟨hno, -⟩
  · have hget := hd.get
    have hlt : i < 3 := (List.getElem?_eq_some_iff.1 hget).1
    match i, hlt with
    | 0, _ =>
      obtain rfl : m.uartRange = rg := Option.some.inj hget
      have hlow := MiniMap.contains_uart hd.contains
      omega
    | 1, _ =>
      obtain rfl : m.deviceRange = rg := Option.some.inj hget
      have hlow := MiniMap.contains_device hd.contains
      omega
    | 2, _ =>
      obtain rfl : m.ramRange = rg := Option.some.inj hget
      rw [bTransport, he]
      rfl
  · have hout := hno m.ramRange (by simp [MiniMap.bus])
    rw [h] at hout
    cases hout

/-- Any other leaves the RAM. -/
theorem ram_bTransport (h : ¬ m.ramRange.contains t.address = true) : (s.bTransport ip t d).1.ram = s.ram := by
  rw [bTransport]
  rcases m.bus.bTransport_cases (socket ip) s t d with ⟨i, rg, hd, he⟩ | ⟨-, he⟩
  · rw [he]
    have hget := hd.get
    have hlt : i < 3 := (List.getElem?_eq_some_iff.1 hget).1
    match i, hlt with
    | 0, _ => rfl
    | 1, _ => rfl
    | 2, _ =>
      obtain rfl : m.ramRange = rg := Option.some.inj hget
      exact absurd hd.contains h
  · rw [he]

/-- What is not a transaction leaves the RAM, and shows nothing. -/
theorem step_quiet (h : machine m ip s op = some (s', o)) (hop : ∀ t d, op ≠ .transport t d) :
    s'.ram = s.ram ∧ o = [] := by
  rcases op with ⟨t, d⟩ | level | u | u
  · exact absurd rfl (hop t d)
  · obtain ⟨-, heq⟩ := Option.ite_none_left_eq_some.1 h
    cases heq
    exact ⟨rfl, rfl⟩
  · cases h
    exact ⟨rfl, rfl⟩
  · cases h
    exact ⟨rfl, rfl⟩

end MiniPlatform
end CdcVp
