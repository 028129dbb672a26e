import WasmEngine.Bytes.Integers
import WasmEngine.Machine.Fault
import WasmEngine.Machine.Value

/-!
# Linear memory and tables

A memory is a whole number of pages.  Every access checks its range before it reads or writes, so an
access that fails changes nothing.
-/

namespace WasmEngine

namespace Memory

/-- The number of bytes of a page. -/
abbrev pageSize : Nat := 65536

/-- The greatest number of pages of any memory. -/
def maxPages : Nat := 65536

/-- The bytes of one page. -/
abbrev Page := Vector UInt8 pageSize

/-- A page of zeros. -/
def zeroPage : Page := Vector.replicate pageSize 0

end Memory

/-- A memory: its pages, and how many it may have. -/
structure Memory where
  content : Array Memory.Page
  max : Option Nat
  deriving DecidableEq

namespace Memory

/-- So many pages of zeros. -/
def zeros (count : Nat) : Array Page := Array.replicate count zeroPage

/-- A memory of zeros, if its limits are in order. -/
def create (limits : Limits) : Except Fault Memory :=
  if maxPages < limits.min then .error (.size (.initialAboveLimit limits.min maxPages))
  else
    match limits.max with
    | none => .ok ⟨zeros limits.min, none⟩
    | some m =>
      if m < limits.min then .error (.size (.initialAboveMaximum limits.min m))
      else if maxPages < m then .error (.size (.maximumAboveLimit m maxPages))
      else .ok ⟨zeros limits.min, some m⟩

/-- The number of pages. -/
def pages (m : Memory) : Nat := m.content.size

/-- The number of bytes. -/
def size (m : Memory) : Nat := m.pages * pageSize

/-- The number of pages that a memory may grow to. -/
def limit (m : Memory) : Nat := m.max.getD maxPages

/-- The memory with so many more pages of zeros, if it may have them. -/
def grow? (m : Memory) (delta : Nat) : Option Memory :=
  if m.pages + delta ≤ m.limit then some { m with content := m.content ++ zeros delta } else none

/-- Grows a memory and gives its former size, or −1 if it stays as it is. -/
def grow (m : Memory) (delta : Nat) : Int × Memory :=
  match m.grow? delta with
  | some grown => (m.pages, grown)
  | none => (-1, m)

/-- The byte at an address. -/
def byte? (m : Memory) (address : Nat) : Option UInt8 :=
  m.content[address / pageSize]?.bind fun page => page[address % pageSize]?

/-- Changes the byte at an address. -/
def setByte (m : Memory) (address : Nat) (b : UInt8) : Memory :=
  { m with
    content := m.content.modify (address / pageSize) fun page =>
      page.setIfInBounds (address % pageSize) b }

/-- Whether a range of bytes lies in the memory. -/
def contains (m : Memory) (address length : Nat) : Bool := address + length ≤ m.size

/-- The bytes of a range. -/
def read (m : Memory) (address length : Nat) : Except Fault (List UInt8) :=
  if m.contains address length then .ok ((List.range' address length).filterMap m.byte?)
  else .error (.trap .outOfBounds)

/-- Puts bytes into a memory from an address on; those beyond its end are dropped. -/
def put (m : Memory) (address : Nat) : List UInt8 → Memory
  | [] => m
  | b :: bs => (m.setByte address b).put (address + 1) bs

/-- Writes bytes into a memory from an address on. -/
def write (m : Memory) (address : Nat) (bytes : List UInt8) : Except Fault Memory :=
  if m.contains address bytes.length then .ok (m.put address bytes)
  else .error (.trap .outOfBounds)

/-- The number in `width` bytes, the least significant first. -/
def readWord (m : Memory) (width address : Nat) : Except Fault Nat :=
  match m.read address width with
  | .ok bytes => .ok (LittleEndian.toNat bytes)
  | .error e => .error e

/-- Writes a number into `width` bytes, the least significant first. -/
def writeWord (m : Memory) (width address n : Nat) : Except Fault Memory :=
  m.write address (LittleEndian.bytes width n)

end Memory

/-! ## Loads and stores

How many bytes each load and store moves, and how a load widens them.
-/

/-- The bytes that a load reads, and whether it repeats their sign. -/
structure LoadShape where
  width : Nat
  signed : Bool
  deriving DecidableEq, Repr

namespace LoadShape

/-- The shape of a load of a type. -/
def ofName? : Valtype → String → Option LoadShape
  | .i32, "load" => some ⟨4, false⟩
  | .i64, "load" => some ⟨8, false⟩
  | .f32, "load" => some ⟨4, false⟩
  | .f64, "load" => some ⟨8, false⟩
  | .i32, "load8_s" => some ⟨1, true⟩
  | .i32, "load8_u" => some ⟨1, false⟩
  | .i32, "load16_s" => some ⟨2, true⟩
  | .i32, "load16_u" => some ⟨2, false⟩
  | .i64, "load8_s" => some ⟨1, true⟩
  | .i64, "load8_u" => some ⟨1, false⟩
  | .i64, "load16_s" => some ⟨2, true⟩
  | .i64, "load16_u" => some ⟨2, false⟩
  | .i64, "load32_s" => some ⟨4, true⟩
  | .i64, "load32_u" => some ⟨4, false⟩
  | _, _ => none

/-- The value of a type that a load makes of the number that it read. -/
def widen (shape : LoadShape) (t : Valtype) (n : Nat) : Value :=
  if shape.signed then .ofInt t (Int.bmod n (1 <<< (8 * shape.width))) else .ofBits t n

end LoadShape

/-- The number of bytes that a store of a type writes. -/
def storeWidth? : Valtype → String → Option Nat
  | .i32, "store" => some 4
  | .i64, "store" => some 8
  | .f32, "store" => some 4
  | .f64, "store" => some 8
  | .i32, "store8" => some 1
  | .i32, "store16" => some 2
  | .i64, "store8" => some 1
  | .i64, "store16" => some 2
  | .i64, "store32" => some 4
  | _, _ => none

/-- The address of an access: the base and the fixed offset, without wrapping. -/
def effectiveAddress (base : BitVec 32) (memArg : Option MemArg) : Nat :=
  base.toNat + memArg.elim 0 MemArg.offset

/-- The value that a load gives. -/
def Memory.load (m : Memory) (t : Valtype) (id : String) (address : Nat) : Except Fault Value :=
  match LoadShape.ofName? t id with
  | none => .error (.unknownInstruction (mnemonic (some t) id))
  | some shape =>
    match m.readWord shape.width address with
    | .ok n => .ok (shape.widen t n)
    | .error e => .error e

/-! ## Tables

A table holds addresses of functions for indirect calls.  A slot is empty until it is assigned.
-/

/-- A table of function addresses. -/
structure Table where
  slots : List (Option Nat)
  limits : Limits
  deriving DecidableEq, Repr

namespace Table

/-- A table of empty slots. -/
def create (limits : Limits) : Table := ⟨List.replicate limits.min none, limits⟩

/-- The number of slots. -/
def size (t : Table) : Nat := t.slots.length

/-- The address in a slot. -/
def get (t : Table) (i : Nat) : Except Fault Nat :=
  match t.slots[i]? with
  | some (some address) => .ok address
  | _ => .error (.trap .undefinedElement)

/-- Assigns a slot. -/
def set (t : Table) (i address : Nat) : Except Fault Table :=
  if i < t.size then .ok { t with slots := t.slots.set i (some address) }
  else .error (.trap .undefinedElement)

/-- Assigns consecutive slots, all of them or none. -/
def fill (t : Table) (offset : Nat) (addresses : List Nat) : Except Fault Table :=
  if offset + addresses.length ≤ t.size then
    .ok { t with
      slots := t.slots.take offset ++ addresses.map some
        ++ t.slots.drop (offset + addresses.length) }
  else .error (.size .elementsDoNotFit)

end Table

end WasmEngine
