import Mathlib.Data.List.Basic

/-!
# Transactions

The generic payload of TLM-2.0 with the attributes the components read or set, and the two shapes of
target: blocking transport (`BSocket`) and the untimed debug transport (`DbgSocket`), each a function
of the target's state. `delay` is the annotated time, in picoseconds.
-/

namespace CdcVp

inductive TlmCommand
  | read
  | write
  | ignore
deriving DecidableEq, Repr

inductive TlmResponse
  | ok
  | incomplete
  | genericError
  | addressError
  | commandError
  | burstError
  | byteEnableError
deriving DecidableEq, Repr

/-- `tlm::tlm_generic_payload`. `dataPtr` is `none` for a null pointer and else the bytes at it. -/
structure Payload where
  command : TlmCommand
  address : UInt64
  dataPtr : Option (List UInt8)
  dataLength : UInt32
  responseStatus : TlmResponse := .incomplete
  dmiAllowed : Bool := false
deriving DecidableEq, Repr

/-- A generic payload with the attributes that the APB timers check. -/
structure ApbPayload extends Payload where
  byteEnablePtr : Option (List UInt8) := none
  streamingWidth : UInt32 := dataLength
deriving DecidableEq, Repr

/-- A non-null buffer of exactly `data_length` bytes. -/
def Payload.HasBuffer (t : Payload) (buf : List UInt8) : Prop :=
  t.dataPtr = some buf ∧ buf.length = t.dataLength.toNat

abbrev BSocket (σ : Type*) := σ → Payload → Nat → σ × Payload × Nat

/-- The `transport_dbg` of a target with state `σ`; the last component is the returned count. -/
abbrev DbgSocket (σ : Type*) := σ → Payload → σ × Payload × UInt32

end CdcVp
