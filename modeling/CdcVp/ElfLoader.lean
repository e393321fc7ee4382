import CdcVp.LittleEndian
import CdcVp.Tlm

/-!
# `elf_loader.h`

The loader runs in `LoadM σ`, exceptions over the state of the memory target: as in C++, what was
written before a `throw` stays written. The state also keeps an access log, which nothing reads back:
every byte taken from the file image, every program header reached and every pointer and length
handed to `dbg_write`.
-/

namespace CdcVp

/-- The file read into a `std::vector<std::uint8_t>`. -/
structure Image where
  bytes : List UInt8
  size_lt : bytes.length < 2 ^ 63
deriving DecidableEq

/-- What `load_elf` can throw. -/
inductive ElfError
  | cannotOpen (path : String)
  | notElf (path : String)
  | notLittleEndian
  | segmentExceedsFile
  | backdoorWriteIncomplete
  | outOfRange
deriving DecidableEq, Repr

/-- The `what()` of the loader's own errors; `std::vector::at` words its `std::out_of_range` itself. -/
def ElfError.what : ElfError → Option String
  | cannotOpen path => some ("elf_loader: cannot open " ++ path)
  | notElf path => some ("elf_loader: not an ELF file: " ++ path)
  | notLittleEndian => some "elf_loader: only little-endian ELF supported"
  | segmentExceedsFile => some "elf_loader: segment exceeds file size"
  | backdoorWriteIncomplete => some "elf_loader: backdoor write incomplete (address not mapped?)"
  | outOfRange => none

/-- One use of the image: a byte read, program header `i` found at `ph`, or `len` bytes from
`b.data() + off` handed to `dbg_write`. -/
inductive Access
  | read (off : UInt64)
  | header (i : Nat) (ph : UInt64)
  | handed (off : UInt64) (len : UInt32)
deriving DecidableEq, Repr

/-- The memory target and the access log. -/
structure LoadState (σ : Type) where
  target : σ
  log : List Access

abbrev LoadM (σ : Type) := EStateM ElfError (LoadState σ)

section
variable {σ : Type}

def LoadState.logged (s : LoadState σ) (l : List Access) : LoadState σ := { s with log := s.log ++ l }

def note (a : Access) : LoadM σ Unit := modify fun s => s.logged [a]

namespace Image

def size (b : Image) : UInt64 := UInt64.ofNat b.bytes.length

def checkedAt (b : Image) (off : UInt64) : LoadM σ UInt8 := do
  match b.bytes[off.toNat]? with
  | some v => note (.read off); return v
  | none => throw .outOfRange

/-- `b[off]`, unchecked. -/
def index (b : Image) (off : UInt64) : LoadM σ UInt8 := do
  note (.read off)
  return b.bytes.getD off.toNat 0

/-- The `len` bytes at `b.data() + off`. Past the end of the vector they are whatever the host has
there; the model says zero, and no proof depends on it. -/
def data (b : Image) (off : UInt64) (len : UInt32) : List UInt8 :=
  (List.range len.toNat).map fun j => b.bytes.getD (off.toNat + j) 0

end Image

def rd16 (b : Image) (off : UInt64) : LoadM σ UInt16 := do
  let b0 ← b.checkedAt off
  let b1 ← b.checkedAt (off + 1)
  return b0.toUInt16 ||| b1.toUInt16 <<< 8

def rd32 (b : Image) (off : UInt64) : LoadM σ UInt32 := do
  let b0 ← b.checkedAt off
  let b1 ← b.checkedAt (off + 1)
  let b2 ← b.checkedAt (off + 2)
  let b3 ← b.checkedAt (off + 3)
  return b0.toUInt32 ||| b1.toUInt32 <<< 8 ||| b2.toUInt32 <<< 16 ||| b3.toUInt32 <<< 24

def rd64 (b : Image) (off : UInt64) : LoadM σ UInt64 := do
  let lo ← rd32 b off
  let hi ← rd32 b (off + 4)
  return lo.toUInt64 ||| hi.toUInt64 <<< 32

/-- `detail::dbg_write` of the `len` bytes at `b.data() + off`. -/
def dbgWrite (sock : DbgSocket σ) (addr : UInt64) (b : Image) (off : UInt64) (len : UInt32) :
    LoadM σ Unit := do
  note (.handed off len)
  let trans : Payload :=
    { command := .write, address := addr, dataPtr := some (b.data off len), dataLength := len }
  let s ← get
  let (target, _, n) := sock s.target trans
  set { s with target := target }
  if n ≠ len then throw .backdoorWriteIncomplete

/-- The offset of program header `i`. The product of the two 16-bit values is an `int`: it wraps at
`2 ^ 31`, as two's complement hardware has it, and is sign-extended to `std::size_t`. -/
def phAddr (phoff : UInt64) (phentsize : UInt16) (i : Nat) : UInt64 :=
  phoff + (Int32.ofNat (i * phentsize.toNat)).toInt64.toUInt64

/-- The fields `(p_offset, p_paddr, p_filesz)` of the program header at `ph`. -/
def readPhdr (b : Image) (is64 : Bool) (ph : UInt64) : LoadM σ (UInt64 × UInt64 × UInt64) := do
  if is64 then
    let pOffset ← rd64 b (ph + 8)
    let pPaddr ← rd64 b (ph + 16)
    let pFilesz ← rd64 b (ph + 32)
    return (pOffset, pPaddr, pFilesz)
  else
    let pOffset ← rd32 b (ph + 4)
    let pPaddr ← rd32 b (ph + 12)
    let pFilesz ← rd32 b (ph + 16)
    return (pOffset.toUInt64, pPaddr.toUInt64, pFilesz.toUInt64)

def loadPhdr (sock : DbgSocket σ) (b : Image) (is64 : Bool) (phoff : UInt64) (phentsize : UInt16)
    (i : Nat) : LoadM σ Unit := do
  let ph := phAddr phoff phentsize i
  let pType ← rd32 b ph
  note (.header i ph)
  if pType ≠ 1 then return
  let (pOffset, pPaddr, pFilesz) ← readPhdr b is64 ph
  if pFilesz = 0 then return
  if pOffset + pFilesz > b.size then throw .segmentExceedsFile
  dbgWrite sock pPaddr b pOffset pFilesz.toUInt32

def hasMagic (b : Image) : LoadM σ Bool := do
  if b.size < 64 then return false
  if (← b.index 0) ≠ 0x7F then return false
  if (← b.index 1) ≠ 0x45 then return false
  if (← b.index 2) ≠ 0x4C then return false
  return (← b.index 3) = 0x46

/-- The header fields `(e_entry, e_phoff, e_phentsize, e_phnum)`. -/
def readEhdr (b : Image) (is64 : Bool) : LoadM σ (UInt64 × UInt64 × UInt16 × UInt16) := do
  if is64 then
    let entry ← rd64 b 24
    let phoff ← rd64 b 32
    let phentsize ← rd16 b 54
    let phnum ← rd16 b 56
    return (entry, phoff, phentsize, phnum)
  else
    let entry ← rd32 b 24
    let phoff ← rd32 b 28
    let phentsize ← rd16 b 42
    let phnum ← rd16 b 44
    return (entry.toUInt64, phoff.toUInt64, phentsize, phnum)

/-- `load_elf`; `file` is what opening `path` gives, `none` when it cannot be opened. -/
def loadElf (sock : DbgSocket σ) (path : String) (file : Option Image) : LoadM σ UInt64 := do
  match file with
  | none => throw (.cannotOpen path)
  | some b =>
    if !(← hasMagic b) then throw (.notElf path)
    let is64 := (← b.index 4) = 2
    if (← b.index 5) ≠ 1 then throw .notLittleEndian
    let (entry, phoff, phentsize, phnum) ← readEhdr b is64
    (List.range phnum.toNat).forM (loadPhdr sock b is64 phoff phentsize)
    return entry

end
end CdcVp
