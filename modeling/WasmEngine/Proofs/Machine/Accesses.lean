import Mathlib.Tactic.Common
import WasmEngine.Proofs.Bytes.Reader
import WasmEngine.Proofs.Machine.FrameEffects
import WasmEngine.Proofs.Machine.Patches

/-!
# Loads and stores

A store puts the low bytes of a value into the memory, the least significant first, and a load makes a value of
the word that it finds.  The address is the base and the fixed offset, as numbers.  An access that leaves the
memory traps before it changes anything.
-/

namespace WasmEngine

/-! ## Words and their bytes -/

/-- The byte of a word at a position, the least significant first. -/
def wordByte {width : Nat} (word : BitVec (8 * width)) (k : Nat) : UInt8 :=
  UInt8.ofBitVec (word.extractLsb' (8 * k) 8)

/-- So many low bytes of the pattern of a value. -/
def Value.low (width : Nat) : Value → BitVec (8 * width)
  | i32 b => b.setWidth (8 * width)
  | i64 b => b.setWidth (8 * width)
  | f32 b => b.setWidth (8 * width)
  | f64 b => b.setWidth (8 * width)

/-- The low bytes of a value are the low bits of its bit pattern. -/
theorem Value.low_eq (width : Nat) (v : Value) : v.low width = BitVec.ofNat (8 * width) v.bits := by
  cases v <;> exact (BitVec.ofNat_toNat _ _).symm

namespace LittleEndian

/-- Byte `k` of a number cut to `width` bytes is its digit of weight `256 ^ k`. -/
theorem wordByte_ofNat {width k : Nat} (n : Nat) (within : k < width) :
    wordByte (BitVec.ofNat (8 * width) n) k = UInt8.ofNat (n / 2 ^ (8 * k)) := by
  refine congrArg UInt8.ofBitVec (BitVec.eq_of_getLsbD_eq fun i small => ?_)
  rw [BitVec.getLsbD_extractLsb', BitVec.getLsbD_ofNat, BitVec.getLsbD_ofNat, ← Nat.shiftRight_eq_div_pow,
    Nat.testBit_shiftRight]
  simp [small, show 8 * k + i < 8 * width by omega]

/-- The little-endian bytes of a number are its digits to base 256, the least significant first. -/
theorem getElem?_bytes {width k : Nat} (n : Nat) (within : k < width) :
    (bytes width n)[k]? = some (UInt8.ofNat (n / 2 ^ (8 * k))) := by
  induction width generalizing n k with
  | zero => omega
  | succ width ih =>
    rw [bytes]
    cases k with
    | zero =>
      refine congrArg some (UInt8.toNat_inj.1 ?_)
      simp
    | succ k =>
      rw [List.getElem?_cons_succ, ih (n / 256) (by omega), Nat.div_div_eq_div_mul, Nat.mul_succ,
        Nat.add_comm, Nat.pow_add]

/-- Spelling a number read off bytes in as many bytes gives the bytes back. -/
theorem bytes_toNat (bs : List UInt8) : bytes bs.length (toNat bs) = bs := by
  induction bs with
  | nil => rfl
  | cons b bs ih =>
    have small := b.toNat_lt
    rw [List.length_cons, toNat, bytes, show (b.toNat + 256 * toNat bs) / 256 = toNat bs by omega, ih,
      show (b.toNat + 256 * toNat bs) % 256 = b.toNat by omega, UInt8.ofNat_toNat]

end LittleEndian

/-! ## Words in a memory -/

namespace Memory

variable {m : Memory} {address width : Nat} {word : BitVec (8 * width)}

/-- The bytes from an address on are those of a word. -/
def Spells (m : Memory) (address : Nat) {width : Nat} (word : BitVec (8 * width)) : Prop :=
  ∀ k < width, m.byte? (address + k) = some (wordByte word k)

/-- A memory after a word was written: its bytes are in their place, and nothing else is different. -/
structure Written (m : Memory) (address : Nat) {width : Nat} (word : BitVec (8 * width)) (m' : Memory) : Prop where
  word : m'.Spells address word
  others : ∀ k, k < address ∨ address + width ≤ k → m'.byte? k = m.byte? k
  size : m'.size = m.size
  max : m'.max = m.max

/-- A range is within a memory exactly when its end is at most the size. -/
theorem contains_iff {length : Nat} : m.contains address length = true ↔ address + length ≤ m.size :=
  decide_eq_true_iff

/-- Every address below the size holds a byte. -/
theorem exists_byte? (within : address < m.size) : ∃ b, m.byte? address = some b := by
  have page : address / pageSize < m.content.size := by
    rwa [size, pages, ← Nat.div_lt_iff_lt_mul (by decide)] at within
  have place : address % pageSize < pageSize := Nat.mod_lt _ (by decide)
  refine ⟨m.content[address / pageSize][address % pageSize], ?_⟩
  rw [byte?, Array.getElem?_eq_getElem page, Option.bind_some, Vector.getElem?_eq_getElem place]

/-- Looking a list up by consecutive addresses gives the list back. -/
theorem filterMap_range' {f : Nat → Option UInt8} (bytes : List UInt8) (a : Nat)
    (each : ∀ k < bytes.length, f (a + k) = bytes[k]?) :
    (List.range' a bytes.length).filterMap f = bytes := by
  induction bytes generalizing a with
  | nil => rfl
  | cons b bytes ih =>
    have first : f a = some b := each 0 (Nat.succ_pos _)
    rw [List.length_cons, List.range'_succ, List.filterMap_cons_some first, ih]
    intro k within
    rw [Nat.add_assoc, Nat.add_comm 1 k]
    exact each (k + 1) (Nat.succ_lt_succ within)

/-- Reading where a word is spelled gives its little-endian bytes. -/
theorem read_of_spells (fits : address + width ≤ m.size) (spells : m.Spells address word) :
    m.read address width = .ok (LittleEndian.bytes width word.toNat) := by
  have each : ∀ k < (LittleEndian.bytes width word.toNat).length,
      m.byte? (address + k) = (LittleEndian.bytes width word.toNat)[k]? := by
    intro k within
    rw [LittleEndian.length_bytes] at within
    rw [spells k within, LittleEndian.getElem?_bytes _ within, ← LittleEndian.wordByte_ofNat _ within,
      BitVec.ofNat_toNat, BitVec.setWidth_eq]
  have listed := filterMap_range' _ address each
  rw [LittleEndian.length_bytes] at listed
  rw [read, if_pos (contains_iff.2 fits), listed]

/-- Reading a word where it is spelled gives that word. -/
theorem readWord_of_spells (fits : address + width ≤ m.size) (spells : m.Spells address word) :
    m.readWord width address = .ok word.toNat := by
  rw [readWord, read_of_spells fits spells]
  exact congrArg Except.ok (LittleEndian.toNat_bytes_of_lt word.isLt)

/-- Reading a word that ends past the memory is the out-of-bounds trap. -/
theorem readWord_outside (outside : m.size < address + width) :
    m.readWord width address = .error (.trap .outOfBounds) := by
  rw [readWord, read, if_neg fun fits => Nat.not_le_of_lt outside (contains_iff.1 fits)]

/-- There is a word wherever there are bytes enough. -/
theorem exists_spells (fits : address + width ≤ m.size) : ∃ word : BitVec (8 * width), m.Spells address word := by
  have each : ∀ k : Fin width, ∃ b, m.byte? (address + k) = some b := fun k => exists_byte? (by omega)
  choose byte here using each
  refine ⟨BitVec.ofNat (8 * width) (LittleEndian.toNat (List.ofFn byte)), fun k within => ?_⟩
  have same := LittleEndian.bytes_toNat (List.ofFn byte)
  rw [List.length_ofFn] at same
  rw [LittleEndian.wordByte_ofNat _ within, ← LittleEndian.getElem?_bytes _ within, same, here ⟨k, within⟩,
    List.getElem?_ofFn, dif_pos within]

/-- Writing the bytes of a number leaves its low bytes at the address and every other byte as it was. -/
theorem written_put (fits : address + width ≤ m.size) (n : Nat) :
    m.Written address (BitVec.ofNat (8 * width) n) (m.put address (LittleEndian.bytes width n)) := by
  have bytes := byte?_put m address (LittleEndian.bytes width n) (by rwa [LittleEndian.length_bytes])
  rw [LittleEndian.length_bytes] at bytes
  refine ⟨fun k within => ?_, fun k outside => ?_, ?_, m.max_put _ _⟩
  · rw [bytes, if_pos ⟨by omega, by omega⟩, Nat.add_sub_cancel_left, LittleEndian.getElem?_bytes _ within,
      LittleEndian.wordByte_ofNat _ within]
  · rw [bytes, if_neg (by omega)]
  · rw [size, size, pages_put]

end Memory

/-! ## The instructions -/

/-- The stores: a type, a name, and how many bytes are written. -/
inductive Stores : Valtype → String → Nat → Prop
  | i32 : Stores .i32 "store" 4
  | i64 : Stores .i64 "store" 8
  | f32 : Stores .f32 "store" 4
  | f64 : Stores .f64 "store" 8
  | i32_8 : Stores .i32 "store8" 1
  | i32_16 : Stores .i32 "store16" 2
  | i64_8 : Stores .i64 "store8" 1
  | i64_16 : Stores .i64 "store16" 2
  | i64_32 : Stores .i64 "store32" 4

/-- The loads: a type, a name, how many bytes are read, and the value that is made of them. -/
inductive Loads : Valtype → String → (width : Nat) → (BitVec (8 * width) → Value) → Prop
  | i32 : Loads .i32 "load" 4 fun word => .i32 word
  | i64 : Loads .i64 "load" 8 fun word => .i64 word
  | f32 : Loads .f32 "load" 4 fun word => .f32 word
  | f64 : Loads .f64 "load" 8 fun word => .f64 word
  | i32_8s : Loads .i32 "load8_s" 1 fun word => .i32 (word.signExtend 32)
  | i32_8u : Loads .i32 "load8_u" 1 fun word => .i32 (word.setWidth 32)
  | i32_16s : Loads .i32 "load16_s" 2 fun word => .i32 (word.signExtend 32)
  | i32_16u : Loads .i32 "load16_u" 2 fun word => .i32 (word.setWidth 32)
  | i64_8s : Loads .i64 "load8_s" 1 fun word => .i64 (word.signExtend 64)
  | i64_8u : Loads .i64 "load8_u" 1 fun word => .i64 (word.setWidth 64)
  | i64_16s : Loads .i64 "load16_s" 2 fun word => .i64 (word.signExtend 64)
  | i64_16u : Loads .i64 "load16_u" 2 fun word => .i64 (word.setWidth 64)
  | i64_32s : Loads .i64 "load32_s" 4 fun word => .i64 (word.signExtend 64)
  | i64_32u : Loads .i64 "load32_u" 4 fun word => .i64 (word.setWidth 64)

/-- A store that is listed has the width it is listed with. -/
theorem Stores.width_eq {t : Valtype} {name : String} {width : Nat} (stores : Stores t name width) :
    storeWidth? t name = some width := by
  cases stores <;> rfl

namespace Loads

variable {t : Valtype} {name : String} {width : Nat} {make : BitVec (8 * width) → Value}

/-- A number read with a sign and cut to a wider type is the word, extended by its sign. -/
theorem ofInt_bmod {v w : Nat} (word : BitVec w) {modulus : Nat} (same : modulus = 2 ^ w) :
    BitVec.ofInt v (Int.bmod word.toNat modulus) = word.signExtend v := by
  rw [same, ← BitVec.toInt_eq_toNat_bmod]
  rfl

/-- A load that is listed reads its width and widens the word as it is listed. -/
theorem widen_eq (loads : Loads t name width make) : ∃ shape, LoadShape.ofName? t name = some shape ∧
    shape.width = width ∧ ∀ word : BitVec (8 * width), shape.widen t word.toNat = make word := by
  cases loads with
  | i32 => exact ⟨_, rfl, rfl, fun word => congrArg Value.i32 (BitVec.ofNat_toNat _ word)⟩
  | i64 => exact ⟨_, rfl, rfl, fun word => congrArg Value.i64 (BitVec.ofNat_toNat _ word)⟩
  | f32 => exact ⟨_, rfl, rfl, fun word => congrArg Value.f32 (BitVec.ofNat_toNat _ word)⟩
  | f64 => exact ⟨_, rfl, rfl, fun word => congrArg Value.f64 (BitVec.ofNat_toNat _ word)⟩
  | i32_8s | i32_16s => exact ⟨_, rfl, rfl, fun word => congrArg Value.i32 (ofInt_bmod word rfl)⟩
  | i64_8s | i64_16s | i64_32s => exact ⟨_, rfl, rfl, fun word => congrArg Value.i64 (ofInt_bmod word rfl)⟩
  | i32_8u | i32_16u => exact ⟨_, rfl, rfl, fun word => congrArg Value.i32 (BitVec.ofNat_toNat _ word)⟩
  | i64_8u | i64_16u | i64_32u => exact ⟨_, rfl, rfl, fun word => congrArg Value.i64 (BitVec.ofNat_toNat _ word)⟩

/-- The low bytes of what a load makes are the word that it read. -/
theorem low_make (loads : Loads t name width make) (word : BitVec (8 * width)) :
    (make word).low width = word := by
  have extended : ∀ v, 8 * width ≤ v → (word.signExtend v).setWidth (8 * width) = word := by
    intro v wider
    apply BitVec.eq_of_getLsbD_eq
    intro i small
    rw [BitVec.getLsbD_setWidth, BitVec.getLsbD_signExtend]
    simp [small, show i < v by omega]
  have widened : ∀ v, 8 * width ≤ v → (word.setWidth v).setWidth (8 * width) = word := by
    intro v wider
    apply BitVec.eq_of_getLsbD_eq
    intro i small
    simp [small, show i < v by omega]
  cases loads with
  | i32 | i64 | f32 | f64 => exact BitVec.setWidth_eq word
  | i32_8s | i32_16s | i64_8s | i64_16s | i64_32s => exact extended _ (by decide)
  | i32_8u | i32_16u | i64_8u | i64_16u | i64_32u => exact widened _ (by decide)

/-- A load inside the memory gives the word that is spelled there, widened. -/
theorem load_of_spells (loads : Loads t name width make) {m : Memory} {address : Nat} {word : BitVec (8 * width)}
    (fits : address + width ≤ m.size) (spells : m.Spells address word) :
    m.load t name address = .ok (make word) := by
  obtain ⟨shape, known, rfl, widens⟩ := loads.widen_eq
  simp only [Memory.load, known, Memory.readWord_of_spells fits spells, widens]

/-- A load that reaches past the memory is the out-of-bounds trap. -/
theorem load_outside (loads : Loads t name width make) {m : Memory} {address : Nat}
    (outside : m.size < address + width) : m.load t name address = .error (.trap .outOfBounds) := by
  obtain ⟨shape, known, rfl, -⟩ := loads.widen_eq
  simp only [Memory.load, known, Memory.readWord_outside outside]

end Loads

/-! ## Running them -/

/-- The locals and the instance of the function that runs. -/
def Frame.running? (frames : List Frame) : Option (List Value × Nat) := do
  let innermost ← frames.head?
  let frame ← frames[frames.length - 1 - innermost.function]?
  match frame.kind with
  | .function locals owner => some (locals, owner)
  | _ => none

/-- The instructions of the function that runs use the memory at an address. -/
def Execution.HasMemory {σ : Type} (x : Execution σ) (address : Nat) (m : Memory) : Prop :=
  ∃ locals owner i, Frame.running? x.frames = some (locals, owner) ∧ x.store.instance? owner = .ok i ∧
    i.memory = .ok address ∧ x.store.memory address = .ok m

namespace Exec

open Outcome

variable {σ : Type} {x y : Execution σ} {address : Nat} {m : Memory} {t : Valtype} {name : String}
  {base : BitVec 32} {rest : List StackEntry}

/-- The activation of a state is that of its innermost running function. -/
theorem activation_of_running {found : List Value × Nat} (running : Frame.running? x.frames = some found) :
    activation x = .ok found x := by
  obtain ⟨f, head, inner⟩ := Option.bind_eq_some_iff.1 running
  obtain ⟨frame, at_, here⟩ := Option.bind_eq_some_iff.1 inner
  obtain ⟨-, nil⟩ | ⟨innermost, outer, top, frames⟩ := top_cases x
  · rw [nil] at head
    cases head
  · obtain rfl : innermost = f := by
      rw [frames] at head
      exact Option.some.inj head
    have looked : functionFrame x = .ok (frame, x.frames.length - 1 - innermost.function) x := by
      refine (bind_ok rfl).trans ((bind_ok top).trans ?_)
      rw [at_]
      rfl
    rw [activation, bind_ok looked]
    dsimp only
    split at here
    · next kind =>
      rw [kind]
      cases here
      rfl
    · cases here

/-- The current instance is the one that owns the running function. -/
theorem currentInstance_of_running {locals : List Value} {owner : Nat} {i : ModuleInstance}
    (running : Frame.running? x.frames = some (locals, owner)) (here : x.store.instance? owner = .ok i) :
    currentInstance x = .ok i x := by
  rw [currentInstance, bind_ok (activation_of_running running)]
  refine (bind_ok rfl).trans ?_
  rw [here]
  rfl

/-- What has a memory still has it where only the stack and the entries are others. -/
theorem hasMemory_of_frames {m' : Memory} (has : x.HasMemory address m) (frames : y.frames = x.frames)
    (instances : y.store.instances = x.store.instances) (here : y.store.memory address = .ok m') :
    y.HasMemory address m' := by
  obtain ⟨locals, owner, i, running, known, uses, -⟩ := has
  refine ⟨locals, owner, i, by rw [frames, running], ?_, uses, here⟩
  rw [← known, Store.instance?, Store.instance?, instances]

/-- An access goes on with the memory of the function that runs. -/
theorem bind_memory {α : Type} (has : x.HasMemory address m) (next : Nat → Memory → Exec σ α) :
    (do
      let address ← ofResult (← currentInstance).memory
      let m ← ofResult ((← get).store.memory address)
      next address m) x = next address m x := by
  obtain ⟨locals, owner, i, running, known, uses, here⟩ := has
  rw [bind_ok (currentInstance_of_running running known), uses]
  refine (bind_ok rfl).trans ((bind_ok rfl).trans ?_)
  rw [here]
  exact bind_ok rfl

/-- A load replaces the base on the stack by the value that it gives. -/
theorem load_eq (has : x.HasMemory address m) (memArg : Option MemArg)
    (stack : x.stack.entries = .value (.i32 base) :: rest) :
    load t name memArg x = match m.load t name (effectiveAddress base memArg) with
      | .ok v => .ok () { x with stack := ⟨.value v :: rest⟩ }
      | .error e => .error (.fault e) { x with stack := ⟨rest⟩ } := by
  obtain ⟨s, ⟨entries⟩, frames, world⟩ := x
  obtain rfl : entries = .value (.i32 base) :: rest := stack
  have popped : onStack Stack.popI32 ⟨s, ⟨.value (.i32 base) :: rest⟩, frames, world⟩ =
      .ok base ⟨s, ⟨rest⟩, frames, world⟩ := rfl
  have still : Execution.HasMemory ⟨s, ⟨rest⟩, frames, world⟩ address m := has
  rw [load, bind_ok popped]
  refine (bind_memory still fun _ m => do
    let v ← ofResult (m.load t name (effectiveAddress base memArg))
    onStack (Stack.push v)).trans ?_
  cases m.load t name (effectiveAddress base memArg) <;> rfl

/-- A store takes the value and the base off the stack and writes the low bytes of the value. -/
theorem store_eq (has : x.HasMemory address m) (memArg : Option MemArg) {v : Value} {width : Nat}
    (known : storeWidth? v.type name = some width)
    (stack : x.stack.entries = .value v :: .value (.i32 base) :: rest) :
    store v.type name memArg x =
      if m.contains (effectiveAddress base memArg) width then
        .ok () { x with
          stack := ⟨rest⟩
          store := x.store.put address
            (.memory (m.put (effectiveAddress base memArg) (LittleEndian.bytes width v.bits))) }
      else .error (.fault (.trap .outOfBounds)) { x with stack := ⟨rest⟩ } := by
  obtain ⟨s, ⟨entries⟩, frames, world⟩ := x
  obtain rfl : entries = .value v :: .value (.i32 base) :: rest := stack
  have value : onStack (Stack.popTyped v.type) ⟨s, ⟨.value v :: .value (.i32 base) :: rest⟩, frames, world⟩ =
      .ok v ⟨s, ⟨.value (.i32 base) :: rest⟩, frames, world⟩ := by
    cases v <;> rfl
  have popped : onStack Stack.popI32 ⟨s, ⟨.value (.i32 base) :: rest⟩, frames, world⟩ =
      .ok base ⟨s, ⟨rest⟩, frames, world⟩ := rfl
  have still : Execution.HasMemory ⟨s, ⟨rest⟩, frames, world⟩ address m := has
  have at_ : s.memory address = .ok m := by
    obtain ⟨-, -, -, -, -, -, here⟩ := has
    exact here
  rw [store, bind_ok value, bind_ok popped, known]
  refine (bind_memory still fun address _ => onStore (Store.writeMemory address
    (effectiveAddress base memArg) (LittleEndian.bytes width v.bits))).trans ?_
  simp only [onStore, Store.writeMemory_eq, at_, LittleEndian.length_bytes]
  split_ifs <;> rfl

/-- A load instruction runs as the load of its type and name. -/
theorem instruction_of_loads {width : Nat} {make : BitVec (8 * width) → Value} (loads : Loads t name width make)
    (env : Environment σ) (position : Nat) (args : List Node) (memArg : Option MemArg) :
    instruction env position (.instr name (some t) args memArg) = load t name memArg := by
  cases loads <;> rfl

/-- A store instruction runs as the store of its type and name. -/
theorem instruction_of_stores {width : Nat} (stores : Stores t name width) (env : Environment σ)
    (position : Nat) (args : List Node) (memArg : Option MemArg) :
    instruction env position (.instr name (some t) args memArg) = store t name memArg := by
  cases stores <;> rfl

/-- The operands are off the stack and a memory is another one.  Nothing else of the execution is different. -/
structure Replaces (x : Execution σ) (rest : List StackEntry) (address : Nat) (m' : Memory) (x' : Execution σ) :
    Prop where
  stack : x'.stack = ⟨rest⟩
  store : x.store.Replaced address (.memory m') x'.store
  frames : x'.frames = x.frames
  world : x'.world = x.world

/-- A store that does not leave the memory puts the low bytes of the value at the address, and one that does
traps and changes nothing. -/
theorem instruction_store (has : x.HasMemory address m) (env : Environment σ) (position : Nat) (args : List Node)
    (memArg : Option MemArg) {v : Value} {width : Nat} (stores : Stores v.type name width)
    (stack : x.stack.entries = .value v :: .value (.i32 base) :: rest) {place : Nat}
    (sum : effectiveAddress base memArg = place) :
    if place + width ≤ m.size then ∃ m' x',
      instruction env position (.instr name (some v.type) args memArg) x = .ok () x' ∧
        m.Written place (v.low width) m' ∧ Replaces x rest address m' x'
    else instruction env position (.instr name (some v.type) args memArg) x =
      .error (.fault (.trap .outOfBounds)) { x with stack := ⟨rest⟩ } := by
  rw [instruction_of_stores stores, store_eq has memArg stores.width_eq stack, sum]
  obtain ⟨_, _, _, _, _, _, here⟩ := has
  simp only [Memory.contains_iff]
  split_ifs with fits
  · have known := Store.lt_size_of_get? (Store.memory_eq_ok.1 here)
    refine ⟨m.put place (LittleEndian.bytes width v.bits), _, rfl, ?_, rfl, Store.replaced_put known _, rfl, rfl⟩
    rw [Value.low_eq]
    exact Memory.written_put fits v.bits
  · rfl

/-- A load that does not leave the memory gives the value of the word at the address, and one that does traps. -/
theorem instruction_load (has : x.HasMemory address m) (env : Environment σ) (position : Nat) (args : List Node)
    (memArg : Option MemArg) {width : Nat} {make : BitVec (8 * width) → Value} (loads : Loads t name width make)
    (stack : x.stack.entries = .value (.i32 base) :: rest) {place : Nat}
    (sum : effectiveAddress base memArg = place) :
    if place + width ≤ m.size then ∀ word, m.Spells place word →
      instruction env position (.instr name (some t) args memArg) x =
        .ok () { x with stack := ⟨.value (make word) :: rest⟩ }
    else instruction env position (.instr name (some t) args memArg) x =
      .error (.fault (.trap .outOfBounds)) { x with stack := ⟨rest⟩ } := by
  rw [instruction_of_loads loads, load_eq has memArg stack, sum]
  split_ifs with fits
  · intro word spells
    rw [loads.load_of_spells fits spells]
  · rw [loads.load_outside (Nat.lt_of_not_le fits)]

/-- The sum of a base and an offset of 32 bits each does not wrap in 64 bits. -/
theorem toNat_effectiveAddress (base : BitVec 32) {memArg : Option MemArg}
    (small : memArg.elim 0 MemArg.offset < UInt32.size) :
    (base.setWidth 64 + BitVec.ofNat 64 (memArg.elim 0 MemArg.offset)).toNat = effectiveAddress base memArg := by
  have low := base.isLt
  rw [BitVec.toNat_add, BitVec.toNat_setWidth, BitVec.toNat_ofNat, effectiveAddress]
  rw [UInt32.size] at small
  omega

/-- Loads and stores are exact.  An access traps just if it leaves the memory, and then changes nothing; a store
writes the low bytes of its value and no others; a load gives the value of the bytes that it finds, which are
the low bytes of the value that was stored there. -/
theorem access_of_hasMemory {x : Execution σ} {address : Nat} {m : Memory} (has : x.HasMemory address m)
    (env : Environment σ) (position : Nat) (args : List Node) (memArg : Option MemArg) (base : BitVec 32)
    (rest : List StackEntry) (small : memArg.elim 0 MemArg.offset < UInt32.size) :
    let place := (base.setWidth 64 + BitVec.ofNat 64 (memArg.elim 0 MemArg.offset)).toNat
    place = base.toNat + memArg.elim 0 MemArg.offset ∧
    (∀ (v : Value) name width, Stores v.type name width →
      x.stack.entries = .value v :: .value (.i32 base) :: rest →
      if place + width ≤ m.size then ∃ m' x',
        instruction env position (.instr name (some v.type) args memArg) x = .ok () x' ∧
        m.Written place (v.low width) m' ∧ Replaces x rest address m' x' ∧
        ∀ name' make, Loads v.type name' width make → (make (v.low width)).low width = v.low width ∧
          ∀ (y : Execution σ) rest', y.frames = x'.frames → y.store = x'.store →
            y.stack.entries = .value (.i32 base) :: rest' →
            instruction env position (.instr name' (some v.type) args memArg) y =
              .ok () { y with stack := ⟨.value (make (v.low width)) :: rest'⟩ }
      else instruction env position (.instr name (some v.type) args memArg) x =
        .error (.fault (.trap .outOfBounds)) { x with stack := ⟨rest⟩ }) ∧
    ∀ t name width make, Loads t name width make → x.stack.entries = .value (.i32 base) :: rest →
      if place + width ≤ m.size then ∃ word, m.Spells place word ∧
        instruction env position (.instr name (some t) args memArg) x =
          .ok () { x with stack := ⟨.value (make word) :: rest⟩ }
      else instruction env position (.instr name (some t) args memArg) x =
        .error (.fault (.trap .outOfBounds)) { x with stack := ⟨rest⟩ } := by
  intro place
  have sum : effectiveAddress base memArg = place := (toNat_effectiveAddress base small).symm
  refine ⟨sum.symm, fun v name width stores stack => ?_, fun t name width make loads stack => ?_⟩
  · have outcome := instruction_store has env position args memArg stores stack sum
    split_ifs at outcome ⊢ with fits
    · obtain ⟨m', x', done, written, replaces⟩ := outcome
      refine ⟨m', x', done, written, replaces, fun name' make loads => ⟨loads.low_make _, ?_⟩⟩
      intro y rest' frames store stack'
      have here : y.store.memory address = .ok m' := by
        rw [store]
        exact Store.memory_eq_ok.2 replaces.store.here
      have has' : y.HasMemory address m' := hasMemory_of_frames has (frames.trans replaces.frames)
        (by rw [store, replaces.store.instances]) here
      have loaded := instruction_load has' env position args memArg loads stack' sum
      rw [written.size, if_pos fits] at loaded
      exact loaded _ written.word
    · exact outcome
  · have outcome := instruction_load has env position args memArg loads stack sum
    split_ifs at outcome ⊢ with fits
    · obtain ⟨word, spells⟩ := Memory.exists_spells fits
      exact ⟨word, spells, outcome word spells⟩
    · exact outcome

/-- A memory of one page of zeros. -/
def onePage : Memory := ⟨Memory.zeros 1, none⟩

/-- A function that is about to store −2 with 32 bits at the last word of its memory. -/
def lastWord : Execution Unit where
  store := ⟨#[some (.memory onePage)], #[{ ModuleInstance.empty with mems := [0] }]⟩
  stack := ⟨[.value (.i64 (-2)), .value (.i32 65530), .label 0]⟩
  frames := [.call ⟨.ofString "f", .inline ⟨[], []⟩, [], [], none⟩ 0 [] 0 0]
  world := ()

/-- An embedding whose functions return nothing. -/
def silent : Environment Unit := ⟨300, fun _ _ => return [], fun _ _ w => w⟩

theorem access_of_hasMemory_lastWord :
    lastWord.HasMemory 0 onePage ∧ ∃ m' x',
      instruction silent 0 (.instr "store32" (some .i64) [] (some ⟨2, 2⟩)) lastWord = .ok () x' ∧
      onePage.Written 65532 (0xfffffffe : BitVec (8 * 4)) m' ∧
      instruction silent 0 (.instr "load32_s" (some .i64) [] (some ⟨2, 2⟩))
        { x' with stack := ⟨[.value (.i32 65530)]⟩ } =
          .ok () { x' with stack := ⟨[.value (.i64 (-2))]⟩ } := by
  have has : lastWord.HasMemory 0 onePage := ⟨[], 0, _, rfl, rfl, rfl, rfl⟩
  have size : onePage.size = 65536 := by
    simp [onePage, Memory.size, Memory.pages, Memory.zeros]
  obtain ⟨-, stores, -⟩ := access_of_hasMemory has silent 0 [] (some ⟨2, 2⟩) 65530 [.label 0] (by decide)
  have stored := stores (.i64 (-2)) "store32" 4 .i64_32 rfl
  rw [if_pos (by rw [size]; decide)] at stored
  obtain ⟨m', x', done, written, -, reads⟩ := stored
  obtain ⟨-, loaded⟩ := reads "load32_s" _ .i64_32s
  exact ⟨has, m', x', done, written, loaded _ [] rfl rfl rfl⟩

end Exec

end WasmEngine
