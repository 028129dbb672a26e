import WasmEngine.Binary.Sections
import WasmEngine.Proofs.Binary.Instructions
import WasmEngine.Proofs.Binary.Locals

/-!
# Entries of sections

Each entry of a section is read first (`Entry.read`) and then recorded (`Entry.record`), so that what
a decoder holds is determined by the entries that it read (`Holds`).
-/

namespace WasmEngine.Binary

open Outcome

/-- What an import brings in, before it gets a name. -/
inductive Imported where
  | func (signature : Signature)
  | table (limits : Limits)
  | memory (limits : Limits)
  | global (type : GlobalType)

/-- An entry of a section.  The start function is the entry of a section of its own. -/
inductive Entry where
  | type (signature : Signature)
  | imported (module name : String) (what : Imported)
  | func (signature : Signature)
  | table (limits : Limits)
  | memory (limits : Limits)
  | global (type : GlobalType) (init : List Node)
  | exported (name : String) (kind : ExportKind) (index : Nat)
  | start (index : Nat)
  | elem (target : Nat) (offset : List Node) (funcs : List Nat)
  | code (entry : CodeEntry)
  | data (target : Nat) (offset : List Node) (values : List UInt8)

namespace Entry

/-- The section of an entry. -/
@[simp] def home : Entry → SectionId
  | type _ => .type
  | imported .. => .imports
  | func _ => .function
  | table _ => .table
  | memory _ => .memory
  | global .. => .global
  | exported .. => .exports
  | start _ => .start
  | elem .. => .element
  | code _ => .code
  | data .. => .data

/-- The kind of index that an entry takes. -/
@[simp] def kind? : Entry → Option ExportKind
  | imported _ _ (.func _) | func _ => some .func
  | imported _ _ (.table _) | table _ => some .table
  | imported _ _ (.memory _) | memory _ => some .memory
  | imported _ _ (.global _) | global .. => some .global
  | _ => none

/-- The stem of the name that is made for an entry. -/
@[simp] def stem? : Entry → Option String
  | func _ => some "func"
  | imported _ _ (.table _) | table _ => some "table"
  | _ => none

/-- Whether the name that is made for an entry has a stem. -/
def takes (stem : String) (x : Entry) : Bool := x.stem? == some stem

/-- Whether an entry takes an index of a kind. -/
def hasKind (kind : ExportKind) (x : Entry) : Bool := x.kind? == some kind

/-- A table whose name is made after some others, at a position. -/
def tableDef (limits : Limits) (taken position : Nat) : TableDef :=
  ⟨"anyfunc", limits, some ⟨"table_" ++ toString taken, toString position⟩, []⟩

/-- What an import brings in with its names. -/
@[simp] def descr (name : String) (taken position : Nat) : Imported → ImportDescr
  | .func s => .func ⟨.ofString name, .inline s⟩
  | .table l => .table (tableDef l taken position)
  | .memory l => .memory ⟨l, none⟩
  | .global t => .global t

/-- The field of an entry. -/
@[simp] def field (taken position : Nat) : Entry → Option Node
  | type s => some (.typeDef ⟨none, s⟩)
  | imported module name what =>
    some (.moduleImport ⟨module, name, descr name taken position what, none⟩)
  | table l => some (.table (tableDef l taken position))
  | memory l => some (.memory ⟨l, none⟩)
  | global t init => some (.global t init none)
  | start index => some (.start (.ofNat index))
  | elem target offset funcs => some (.elem (.ofNat target) offset (funcs.map .ofNat))
  | data target offset values => some (.data (.ofNat target) offset values)
  | func _ | exported .. | code _ => none

/-- The function that an entry declares after some number of functions without a body. -/
@[simp] def declared (funcs : Nat) : Entry → Option DeclaredFunc
  | imported _ name (.func s) => some ⟨.ofString name, s, true⟩
  | func s => some ⟨.synthesized ("func_" ++ toString funcs), s, false⟩
  | _ => none

/-- The signature that an entry defines. -/
@[simp] def type? : Entry → Option Signature
  | type s => some s
  | _ => none

/-- The body that an entry brings in. -/
@[simp] def code? : Entry → Option CodeEntry
  | code entry => some entry
  | _ => none

/-- The export of an entry. -/
@[simp] def export? : Entry → Option Node
  | exported name kind index => some (.moduleExport ⟨name, kind, .ofNat index⟩)
  | _ => none

end Entry

/-- What entries give one after the other, numbered by those that count. -/
def numbered {β : Type} (counts : Entry → Bool) (f : Nat → Entry → Option β) (k : Nat) :
    List Entry → List β
  | [] => []
  | x :: xs => (f k x).toList ++ numbered counts f (if counts x then k + 1 else k) xs

/-- One more entry gets the number behind all that count. -/
theorem numbered_concat {β : Type} (counts : Entry → Bool) (f : Nat → Entry → Option β) (k : Nat)
    (xs : List Entry) (x : Entry) : numbered counts f k (xs ++ [x]) =
      numbered counts f k xs ++ (f (k + xs.countP counts) x).toList := by
  induction xs generalizing k with
  | nil => exact List.append_nil _
  | cons y xs ih =>
    have count : (if counts y then k + 1 else k) + xs.countP counts = k + (y :: xs).countP counts := by
      rw [List.countP_cons]
      split_ifs <;> omega
    rw [List.cons_append, numbered, numbered, ih, List.append_assoc, count]

/-- How many entries take an index of a kind. -/
def countOf (kind : ExportKind) (es : List Entry) : Nat := es.countP (Entry.hasKind kind)

/-- A decoder holds what entries bring in. -/
structure Holds (es : List Entry) (d : Decoder) : Prop where
  types : d.types = es.filterMap Entry.type?
  functions : d.functions = numbered (Entry.takes "func") Entry.declared 0 es
  tables : d.tables = countOf .table es
  memories : d.memories = countOf .memory es
  globals : d.globals = countOf .global es
  code : d.code = es.filterMap Entry.code?
  exports : d.exports = es.filterMap Entry.export?
  fields : d.fields = numbered (Entry.hasKind .table) (fun k => Entry.field k k) 0 es
  funcNames : d.names.count "func" = es.countP (Entry.takes "func")
  tableNames : d.names.count "table" = countOf .table es

/-- Reading alone changes nothing of what a decoder knows of its entries. -/
theorem Holds.of_onlyReads {es : List Entry} {n : Nat} {d d' : Decoder} (holds : Holds es d)
    (only : Decode.OnlyReads n d d') : Holds es d' := by
  obtain ⟨-, names, _, rfl, funcs, tables⟩ := only
  exact { holds with
    funcNames := funcs.trans holds.funcNames
    tableNames := tables.trans holds.tableNames }

/-- The functions that were declared are those that have an index. -/
theorem length_functions (es : List Entry) (k : Nat) :
    (numbered (Entry.takes "func") Entry.declared k es).length = countOf .func es := by
  induction es generalizing k with
  | nil => rfl
  | cons x es ih =>
    rw [numbered, List.length_append, ih, countOf, countOf, List.countP_cons, Nat.add_comm]
    congr 1
    cases x with
    | imported module name what => cases what <;> rfl
    | _ => rfl

/-- The decoder knows how many indices of a kind there are. -/
theorem Holds.available {es : List Entry} {d : Decoder} (holds : Holds es d) (kind : ExportKind) :
    (Decode.available d kind).2 = countOf kind es := by
  cases kind with
  | func => exact (congrArg List.length holds.functions).trans (length_functions es 0)
  | table => exact holds.tables
  | memory => exact holds.memories
  | global => exact holds.globals

namespace Entry

/-- The generator after the name of an entry was made. -/
def names (g : NameGenerator) (x : Entry) : NameGenerator :=
  match x.stem? with
  | some stem => (g.unique stem).2
  | none => g

/-- The decoder after an entry was read. -/
def record (d : Decoder) (x : Entry) : Decoder :=
  { d with
    names := x.names d.names
    types := d.types ++ x.type?.toList
    functions := d.functions ++ (x.declared (d.names.count "func")).toList
    tables := d.tables + if x.hasKind .table then 1 else 0
    memories := d.memories + if x.hasKind .memory then 1 else 0
    globals := d.globals + if x.hasKind .global then 1 else 0
    code := d.code ++ x.code?.toList
    exports := d.exports ++ x.export?.toList
    fields := d.fields ++ (x.field (d.names.count "table") d.tables).toList }

/-- An entry takes a name of a stem, or none. -/
theorem count_names (g : NameGenerator) (x : Entry) (stem : String) :
    (x.names g).count stem = g.count stem + if x.takes stem then 1 else 0 := by
  unfold names takes
  cases x.stem? with
  | none => rfl
  | some other =>
    by_cases same : other = stem
    · subst same
      simp [NameGenerator.count_unique_self]
    · have ne := NameGenerator.count_unique_of_ne g (Ne.symm same)
      simp [ne, same]

/-- Just tables take names of tables. -/
theorem takes_table (x : Entry) : x.takes "table" = x.hasKind .table := by
  cases x with
  | imported module name what => cases what <;> rfl
  | _ => rfl

end Entry

theorem countP_concat (p : Entry → Bool) (es : List Entry) (x : Entry) :
    (es ++ [x]).countP p = es.countP p + if p x then 1 else 0 := by
  rw [List.countP_append, List.countP_singleton]

theorem filterMap_concat {β : Type} (f : Entry → Option β) (es : List Entry) (x : Entry) :
    (es ++ [x]).filterMap f = es.filterMap f ++ (f x).toList := by
  rw [List.filterMap_append]
  cases given : f x <;> simp [given]

/-- A decoder that records an entry knows it after the others. -/
theorem Holds.record {es : List Entry} {d : Decoder} (holds : Holds es d) (x : Entry) :
    Holds (es ++ [x]) (x.record d) where
  types := by rw [filterMap_concat, ← holds.types]; rfl
  functions := by rw [numbered_concat, ← holds.functions, Nat.zero_add, ← holds.funcNames]; rfl
  tables := by rw [countOf, countP_concat, ← countOf, ← holds.tables]; rfl
  memories := by rw [countOf, countP_concat, ← countOf, ← holds.memories]; rfl
  globals := by rw [countOf, countP_concat, ← countOf, ← holds.globals]; rfl
  code := by rw [filterMap_concat, ← holds.code]; rfl
  exports := by rw [filterMap_concat, ← holds.exports]; rfl
  fields := by
    have same := holds.tableNames.trans holds.tables.symm
    rw [numbered_concat, ← holds.fields, Nat.zero_add, ← countOf, ← holds.tables]
    unfold Entry.record
    rw [same]
  funcNames := by rw [countP_concat, ← holds.funcNames]; exact Entry.count_names ..
  tableNames := by
    rw [countOf, countP_concat, ← countOf, ← holds.tableNames, ← Entry.takes_table]
    exact Entry.count_names ..

/-! ## Reading before recording -/

namespace Decode

/-- The limits of a table. -/
def tableLimits : DecodeM Limits := do
  let start ← pos
  let elementType ← read .byte
  if elementType != anyFuncByte then failAt start (.unknownElementType elementType.toNat)
  limits

/-- What an import brings in. -/
def imported : DecodeM Imported := do
  let start ← pos
  let kind ← read .byte
  match exportKind? kind with
  | some .func => return .func (← typeIndex)
  | some .table => return .table (← tableLimits)
  | some .memory => return .memory (← limits)
  | some .global => return .global (← globalType)
  | none => failAt start (.unknownImportKind kind.toNat)

/-- A step that has to take as many bytes as were declared. -/
def framed {α : Type} (size : Nat) (what : String) (m : DecodeM α) : DecodeM α := do
  let start ← pos
  let a ← m
  expectPosition (start + size) what
  return a

/-- The locals and instructions of a function. -/
def body (i size : Nat) : DecodeM CodeEntry := do
  note s!"function body {i} ({size} bytes)"
  let locals ← locals
  return ⟨← expression, locals, size⟩

/-- An entry of a section. -/
def entry : SectionId → Nat → DecodeM Entry
  | .type, i => do
    let start ← pos
    let form ← read .byte
    if form != funcTypeByte then failAt start (.unsupportedType form.toNat)
    note s!"type {i}"
    let params ← valtypes
    let results ← valtypes
    return .type ⟨params.map .anonymous, results⟩
  | .imports, i => do
    let module ← read .name
    let name ← read .name
    note s!"import {i} {module}.{name}"
    return .imported module name (← imported)
  | .function, _ => return .func (← typeIndex)
  | .table, _ => return .table (← tableLimits)
  | .memory, _ => return .memory (← limits)
  | .global, _ => do
    let type ← globalType
    return .global type (← expression)
  | .exports, _ => do
    let name ← read .name
    let start ← pos
    let byte ← read .byte
    let index ← read .u32
    note s!"export {name} kind {byte.toNat} index {index}"
    match exportKind? byte with
    | none => failAt start (.unknownExportKind byte.toNat)
    | some kind => return .exported name kind index
  | .start, _ => do
    let index ← read .u32
    note s!"start function {index}"
    return .start index
  | .element, _ => do
    let target ← read .u32
    let offset ← expression
    return .elem target offset (← read .u32 >>= times (read .u32))
  | .code, i => do
    let size ← read .u32
    return .code (← framed size "function body" (body i size))
  | .data, _ => do
    let target ← read .u32
    let start ← pos
    let offset ← expression
    if offset.length != 1 then failAt start .dataOffset
    let count ← read .u32
    let values ← read (.bytes count)
    note s!"data segment ({count} bytes)"
    return .data target offset values
  | .custom, _ => failAt 0 .magicHeader

/-- What the decoder does for an entry of a section. -/
def entryStep : SectionId → Nat → DecodeM Unit
  | .type => typeEntry
  | .imports => importEntry
  | .function => functionEntry
  | .table => tableEntry
  | .memory => memoryEntry
  | .global => globalEntry
  | .exports => exportEntry
  | .start => fun _ => startSection
  | .element => elementEntry
  | .code => codeEntry
  | .data => dataEntry
  | .custom => fun _ => failAt 0 .magicHeader

/-- Records an entry. -/
def enter (x : Entry) : DecodeM Unit := modify x.record

theorem modify_congr {f g : Decoder → Decoder} (same : ∀ d, f d = g d) :
    (modify f : DecodeM Unit) = modify g := congrArg _ (funext same)

/-- A refusal before the rest of a step. -/
theorem unless_bind {α β : Type} {c : Prop} [Decidable c] {offset : Nat} {kind : DecodeErrorKind}
    {f : Unit → DecodeM α} {g : Unit → DecodeM β} {k : β → DecodeM α} (rest : f () = g () >>= k) :
    (if c then failAt offset kind >>= f else f ()) =
      (if c then failAt offset kind >>= g else g ()) >>= k := by
  split_ifs
  · rfl
  · exact rest

/-- Reading a type and entering it. -/
theorem typeEntry_eq (i : Nat) : typeEntry i = entry .type i >>= enter := by
  simp only [typeEntry, entry]
  refine (bind_congr fun start => ?_).trans (bind_assoc _ _ _).symm
  refine (bind_congr fun form => ?_).trans (bind_assoc _ _ _).symm
  refine unless_bind ?_
  simp only [bind_assoc, pure_bind]
  refine bind_congr fun _ => bind_congr fun params => bind_congr fun results => ?_
  exact modify_congr fun d => by simp [Entry.record, Entry.names, Entry.hasKind]

/-- Reading a function and entering it. -/
theorem functionEntry_eq (i : Nat) : functionEntry i = entry .function i >>= enter := by
  simp only [functionEntry, entry, bind_assoc, pure_bind]
  refine bind_congr fun s => ?_
  exact modify_congr fun d => by
    simp [Entry.record, Entry.names, Entry.hasKind]
    rfl

theorem memoryEntry_eq (i : Nat) : memoryEntry i = entry .memory i >>= enter := by
  simp only [memoryEntry, entry, bind_assoc, pure_bind]
  refine bind_congr fun l => ?_
  exact modify_congr fun d => by simp [Entry.record, Entry.names, Entry.hasKind]

theorem globalEntry_eq (i : Nat) : globalEntry i = entry .global i >>= enter := by
  simp only [globalEntry, entry, bind_assoc, pure_bind]
  refine bind_congr fun type => bind_congr fun init => ?_
  exact modify_congr fun d => by simp [Entry.record, Entry.names, Entry.hasKind]

theorem startSection_eq (i : Nat) : startSection = entry .start i >>= enter := by
  simp only [startSection, entry, bind_assoc, pure_bind]
  refine bind_congr fun index => bind_congr fun _ => ?_
  exact modify_congr fun d => by simp [Entry.record, Entry.names, Entry.hasKind]

theorem elementEntry_eq (i : Nat) : elementEntry i = entry .element i >>= enter := by
  simp only [elementEntry, entry, bind_assoc, pure_bind]
  refine bind_congr fun target => bind_congr fun offset => bind_congr fun count =>
    bind_congr fun funcs => ?_
  exact modify_congr fun d => by simp [Entry.record, Entry.names, Entry.hasKind]

theorem codeEntry_eq (i : Nat) : codeEntry i = entry .code i >>= enter := by
  simp only [codeEntry, entry, framed, body, locals, bind_assoc, pure_bind]
  refine bind_congr fun size => bind_congr fun start => bind_congr fun _ => bind_congr fun runs =>
    bind_congr fun locals => bind_congr fun body => bind_congr fun _ => ?_
  exact modify_congr fun d => by simp [Entry.record, Entry.names, Entry.hasKind]

theorem dataEntry_eq (i : Nat) : dataEntry i = entry .data i >>= enter := by
  simp only [dataEntry, entry]
  refine (bind_congr fun target => ?_).trans (bind_assoc _ _ _).symm
  refine (bind_congr fun start => ?_).trans (bind_assoc _ _ _).symm
  refine (bind_congr fun offset => ?_).trans (bind_assoc _ _ _).symm
  refine unless_bind ?_
  simp only [bind_assoc, pure_bind]
  refine bind_congr fun count => bind_congr fun values => bind_congr fun _ => ?_
  exact modify_congr fun d => by simp [Entry.record, Entry.names, Entry.hasKind]

theorem reading_tableLimits : Reading tableLimits := by
  refine reading_pos.bind fun start => reading_byte.bind fun elementType => ?_
  split_ifs
  · exact (reading_failAt _ _).bind fun _ => reading_limits
  · exact reading_limits

/-- The number of tables may be taken after a step that only reads. -/
theorem get_bind_comm {α β : Type} {m : DecodeM α} (reading : Reading m) (f : Nat → α → DecodeM β) :
    (do let d ← get; let a ← m; f d.tables a) = (do let a ← m; let d ← get; f d.tables a) := by
  funext d
  show (m >>= fun a => f d.tables a) d = (m >>= fun a => get >>= fun d => f d.tables a) d
  cases ends : m d with
  | ok a e =>
    rw [bind_ok ends, bind_ok ends]
    obtain ⟨n, -, names, trace, rfl, -, -⟩ := reading d a e ends
    rfl
  | error e d' => rw [bind_error ends, bind_error ends]

/-- A table that gets its name. -/
def namedTable (limits : Limits) : DecodeM TableDef := do
  let index := (← get).tables
  let name ← fresh "table"
  modify fun d => { d with tables := d.tables + 1 }
  return ⟨"anyfunc", limits, some ⟨name, toString index⟩, []⟩

theorem tableType_eq : tableType = tableLimits >>= namedTable := by
  have named := get_bind_comm reading_tableLimits fun index limits => do
    let name ← fresh "table"
    modify fun d => { d with tables := d.tables + 1 }
    pure (⟨"anyfunc", limits, some ⟨name, toString index⟩, []⟩ : TableDef)
  refine Eq.trans (bind_congr fun d => ?_) named
  refine (bind_congr fun start => ?_).trans (bind_assoc _ _ _).symm
  refine (bind_congr fun elementType => ?_).trans (bind_assoc _ _ _).symm
  exact unless_bind rfl

theorem tableEntry_eq (i : Nat) : tableEntry i = entry .table i >>= enter := by
  simp only [tableEntry, entry, tableType_eq, bind_assoc, pure_bind]
  refine bind_congr fun limits => ?_
  exact modify_congr fun d => by
    simp [Entry.record, Entry.names, Entry.hasKind, Entry.tableDef]
    rfl

/-- Reading an import and entering it. -/
theorem importEntry_eq (i : Nat) : importEntry i = entry .imports i >>= enter := by
  simp only [importEntry, importDescr, imported, entry, bind_assoc, pure_bind]
  refine bind_congr fun module => bind_congr fun name => bind_congr fun _ =>
    bind_congr fun start => bind_congr fun byte => ?_
  cases exportKind? byte with
  | none => rfl
  | some kind =>
    cases kind with
    | func =>
      simp only [bind_assoc, pure_bind]
      refine bind_congr fun s => ?_
      exact modify_congr fun d => by simp [Entry.record, Entry.names, Entry.hasKind]
    | table =>
      simp only [tableType_eq, bind_assoc, pure_bind]
      refine bind_congr fun limits => ?_
      exact modify_congr fun d => by
        simp [Entry.record, Entry.names, Entry.hasKind, Entry.tableDef]
        rfl
    | memory =>
      simp only [bind_assoc, pure_bind]
      refine bind_congr fun limits => ?_
      exact modify_congr fun d => by simp [Entry.record, Entry.names, Entry.hasKind]
    | global =>
      simp only [bind_assoc, pure_bind]
      refine bind_congr fun type => ?_
      exact modify_congr fun d => by simp [Entry.record, Entry.names, Entry.hasKind]

/-- An export refers to an index that is taken. -/
def Admitted (d : Decoder) : Entry → Prop
  | .exported _ kind index => index < (available d kind).2
  | _ => True

/-- Entering an entry always succeeds and records it. -/
theorem enter_eq_ok_iff {x : Entry} {d d' : Decoder} :
    enter x d = .ok () d' ↔ d' = x.record d := by
  constructor
  · intro ends
    cases ends
    rfl
  · rintro rfl
    rfl

/-- Steps with a common beginning agree when their ends do. -/
theorem bind_agrees {α : Type} {m : DecodeM α} {f : α → DecodeM Unit} {g : α → DecodeM Entry}
    {R : Entry → Decoder → Prop} {d d' : Decoder}
    (each : ∀ a t, f a t = .ok () d' ↔ ∃ x e, g a t = .ok x e ∧ R x e) :
    (m >>= f) d = .ok () d' ↔ ∃ x e, (m >>= g) d = .ok x e ∧ R x e := by
  simp only [run_bind_eq_ok_iff, each]
  constructor
  · rintro ⟨a, t, first, x, e, rest, holds⟩
    exact ⟨x, e, ⟨a, t, first, rest⟩, holds⟩
  · rintro ⟨x, e, ⟨a, t, first, rest⟩, holds⟩
    exact ⟨a, t, first, x, e, rest, holds⟩

/-- An export is read and entered if its index is in range. -/
theorem exportEntry_eq_ok_iff {i : Nat} {d d' : Decoder} : exportEntry i d = .ok () d' ↔
    ∃ x e, entry .exports i d = .ok x e ∧ Admitted e x ∧ d' = x.record e := by
  refine bind_agrees fun name _ => bind_agrees fun start _ => bind_agrees fun byte _ =>
    bind_agrees fun index _ => bind_agrees fun _ t => ?_
  cases exportKind? byte with
  | none =>
    constructor
    · intro ends
      cases ends
    · rintro ⟨x, e, ends, -⟩
      cases ends
  | some kind =>
    have recorded : (Entry.exported name kind index).record t =
        { t with exports := t.exports ++ [.moduleExport ⟨name, kind, .ofNat index⟩] } := by
      simp [Entry.record, Entry.names, Entry.hasKind]
    by_cases missing : (available t kind).2 ≤ index
    · constructor
      · intro ends
        simp only [bind_ok (show (get : DecodeM Decoder) t = .ok t t from rfl), if_pos missing] at ends
        cases ends
      · rintro ⟨x, e, ends, admitted, -⟩
        cases ends
        exact absurd admitted (Nat.not_lt.2 missing)
    · constructor
      · intro ends
        simp only [bind_ok (show (get : DecodeM Decoder) t = .ok t t from rfl), if_neg missing] at ends
        cases ends
        exact ⟨_, t, rfl, Nat.not_le.1 missing, recorded.symm⟩
      · rintro ⟨x, e, ends, -, rfl⟩
        cases ends
        simp only [bind_ok (show (get : DecodeM Decoder) t = .ok t t from rfl), if_neg missing]
        rw [recorded]
        rfl

/-- Each step of a section but the export section reads an entry and enters it. -/
theorem entryStep_eq (id : SectionId) (notExports : id ≠ .exports) (i : Nat) :
    entryStep id i = entry id i >>= enter := by
  cases id with
  | custom => rfl
  | type => exact typeEntry_eq i
  | imports => exact importEntry_eq i
  | function => exact functionEntry_eq i
  | table => exact tableEntry_eq i
  | memory => exact memoryEntry_eq i
  | global => exact globalEntry_eq i
  | exports => exact absurd rfl notExports
  | start => exact startSection_eq i
  | element => exact elementEntry_eq i
  | code => exact codeEntry_eq i
  | data => exact dataEntry_eq i

/-- A step succeeds when its entry is read and may be recorded. -/
theorem entryStep_eq_ok_iff {id : SectionId} {i : Nat} {d d' : Decoder} :
    entryStep id i d = .ok () d' ↔ ∃ x e, entry id i d = .ok x e ∧
      (id = .exports → Admitted e x) ∧ d' = x.record e := by
  by_cases isExports : id = .exports
  · subst isExports
    simp only [true_implies]
    exact exportEntry_eq_ok_iff
  · simp only [entryStep_eq id isExports, run_bind_eq_ok_iff, enter_eq_ok_iff, isExports,
      false_implies, true_and]

end Decode

end WasmEngine.Binary
