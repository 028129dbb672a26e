import WasmEngine.Proofs.Binary.Canonical
import WasmEngine.Proofs.Binary.Respelling

/-!
# The entries of a module

The fields of a module are written as the entries of sections that decoding gives: signatures without
names, literals in the spelling of the decoder, and the elements inside of tables as segments
(`spells_entries`).
-/

namespace WasmEngine

/-- The position of a resolved reference. -/
def Index.position (i : Index) : Nat := i.number?.getD 0

/-- A signature in place without names, the empty one for a reference. -/
def SignatureRef.signature : SignatureRef → Signature
  | .inline s => s.anonymous
  | .ref _ => ⟨[], []⟩

namespace Binary

open Node Decode

/-- What an import brings in without names. -/
def Imported.ofDescr : ImportDescr → Imported
  | .func d => .func d.signature.signature
  | .table t => .table t.limits
  | .memory m => .memory m.limits
  | .global t => .global t

namespace Entry

/-- The entry of an import. -/
def ofImport (i : ModuleImport) : Entry := .imported i.module i.name (.ofDescr i.descr)

/-- The entry of a global. -/
def ofGlobal (g : GlobalType × List Node) : Entry := .global g.1 (respelledIn g.2)

/-- The entry of an export. -/
def ofExport (e : ModuleExport) : Entry := .exported e.name e.descr.kind e.descr.id.position

/-- The entry of an element segment. -/
def ofElem (e : Index × List Node × List Index) : Entry :=
  .elem e.1.position (respelledIn e.2.1) (e.2.2.map Index.position)

/-- The entry of the locals and instructions of a function. -/
def ofBody (f : Func) : Entry := .code ⟨respelledIn f.body, f.locals.map Param.valtype, 0⟩

/-- The entry of a data segment. -/
def ofData (d : Index × List Node × List UInt8) : Entry :=
  .data d.1.position (respelledIn d.2.1) d.2.2

end Entry

namespace Encode

/-- The offset of a segment at the start of a table. -/
def zeroOffset : List Node := [.instr "const" (some .i32) [.number (.ofInt 0)] none]

/-- The segment of the elements written inside the table at a position. -/
def inlineSegment (position : Nat) (t : TableDef) : Option (Index × List Node × List Index) :=
  if t.elements.isEmpty then none else some (.ofNat position, zeroOffset, t.elements)

namespace Fields

/-- The segments of the elements written inside of tables. -/
def inlineSegments (f : Fields) : List (Option (Index × List Node × List Index)) :=
  (f.tables.zipIdx f.importedTables).map fun (t, position) => inlineSegment position t

/-- The element segments, those inside of tables first. -/
def segments (f : Fields) : List (Index × List Node × List Index) :=
  f.inlineSegments.filterMap id ++ f.elems

/-- The entries of a section in a module whose signatures are listed. -/
def inSection (f : Fields) (T : List Signature) : SectionId → List Entry
  | .custom => []
  | .type => T.map .type
  | .imports => f.imports.map .ofImport
  | .function => f.funcs.map fun g => .func g.signature.signature
  | .table => f.tables.map fun t => .table t.limits
  | .memory => f.memories.map fun m => .memory m.limits
  | .global => f.globals.map .ofGlobal
  | .exports => f.exports.map .ofExport
  | .start => f.starts.map fun i => .start i.position
  | .element => f.segments.map .ofElem
  | .code => f.funcs.map .ofBody
  | .data => f.data.map .ofData

/-- The entries of a module whose signatures are listed. -/
def entries (f : Fields) (T : List Signature) : List Entry := SectionId.ordered.flatMap (f.inSection T)

end Fields

variable {f : Fields} {T : List Signature}

/-- The entries of a section belong to it. -/
theorem home_inSection (id : SectionId) : ∀ x ∈ f.inSection T id, x.home = id := by
  cases id with
  | custom => nofun
  | _ =>
    intro x inside
    obtain ⟨_, -, rfl⟩ := List.mem_map.1 inside
    rfl

/-- Of the entries of a module those of a section are its own. -/
theorem ofSection_entries (id : SectionId) : ofSection id (f.entries T) = f.inSection T id :=
  ofSection_sections home_inSection id

theorem grouped_entries : bySection (f.entries T) = f.entries T := grouped_sections home_inSection

theorem typesOf_ofSection (es : List Entry) : typesOf (ofSection .type es) = typesOf es := by
  induction es with
  | nil => rfl
  | cons x es ih =>
    rw [ofSection_cons]
    cases x with
    | type s => exact congrArg (s :: ·) ih
    | _ => exact ih

/-- The type section of the entries is the one that they were made against. -/
theorem typesOf_entries : typesOf (f.entries T) = T := by
  rw [← typesOf_ofSection, ofSection_entries, Fields.inSection, typesOf, List.filterMap_map]
  exact List.filterMap_some

/-! ## Entries are what is written -/

/-- A reference that is a number has a position. -/
theorem number?_of_isNumber {i : Index} (number : i.IsNumber) : i.number? = some i.position := by
  obtain ⟨n, rfl⟩ := number
  rfl

theorem index_of_isNumber {i : Index} (number : i.IsNumber) : index i = .ok i.position := by
  obtain ⟨n, rfl⟩ := number
  rfl

theorem indices_of_isNumber {is : List Index} (numbers : ∀ i ∈ is, i.IsNumber) :
    indices is = .ok (vector u32 (is.map Index.position)) := by
  have positions : is.mapM index = .ok (is.map Index.position) := by
    induction is with
    | nil => rfl
    | cons i is ih =>
      obtain ⟨first, others⟩ := List.forall_mem_cons.1 numbers
      rw [List.mapM_cons, index_of_isNumber first, ih others]
      rfl
  rw [indices, positions]
  rfl

/-- The position of a number is the number modulo `2 ^ 32`. -/
theorem position_ofNat (n : Nat) : (Index.ofNat n).position = n % UInt32.size := by
  show ((n : Int) % UInt32.size).toNat = _
  rw [← Int.natCast_mod, Int.toNat_natCast]

theorem u32_position_ofNat (n : Nat) : u32 (Index.ofNat n).position = u32 n := by
  rw [u32, u32, position_ofNat, Nat.mod_mod]

/-- The index of a signature that has its place is the one that is written for it. -/
theorem position_of_typeIndex {sig : SignatureRef} (inline : sig.IsInline) {i : Nat}
    (settled : typeIndex sig (typeTable T) = .ok (i, typeTable T)) : position T sig.signature = i := by
  obtain ⟨s, rfl⟩ := inline
  rw [position, SignatureRef.signature, s.funcType_anonymous, findIdx?_of_typeIndex settled]
  rfl

/-- An expression that adds no types is written as its respelling. -/
theorem expression_of_fixed {nodes : List Node} (fixed : Fixed (expression nodes)) :
    expression nodes (typeTable T) = .ok (expressionBytes T (respelledIn nodes), typeTable T) := by
  obtain ⟨bytes, written⟩ := fixed
  rw [written, expressionBytes_respelledIn, expressionBytes_of_settled (written (typeTable T))]

theorem expressionBytes_zeroOffset :
    expressionBytes T (respelledIn zeroOffset) = [0x41, 0x00, endByte] := by
  have written : plain "const" (some .i32) [.number (.ofInt 0)] none = .ok [0x41, 0x00] := by decide +kernel
  have settled : expression zeroOffset (typeTable T) = .ok ([0x41, 0x00, endByte], typeTable T) := by
    rw [expression, zeroOffset, instructions, instruction, written]
    rfl
  rw [expressionBytes_respelledIn, expressionBytes_of_settled settled]

theorem forall₂_map_self {α β : Type} {R : α → β → Prop} {g : α → β} {as : List α}
    (each : ∀ a ∈ as, R a (g a)) : List.Forall₂ R as (as.map g) :=
  List.forall₂_map_right_iff.2 (List.forall₂_same.2 each)

section Spells

variable (encodable : f.Encodable Index.IsNumber)
include encodable

/-- An element segment is written as its entry. -/
theorem elemEntry_eq {e : Index × List Node × List Index} (listed : e ∈ f.elems) :
    elemEntry e (typeTable T) = .ok ((Entry.ofElem e).bytes T, typeTable T) := by
  obtain ⟨target, offset, all⟩ := encodable.elems e listed
  rw [elemEntry, encode_bind (encode_lift (index_of_isNumber target)),
    encode_bind (expression_of_fixed (fixed_expression (fun _ => id) offset)),
    encode_bind (encode_lift (indices_of_isNumber all))]
  rfl

/-- The elements of a table are written as the entry of a segment. -/
theorem inlineElements_eq {t : TableDef} (listed : t ∈ f.tables) (position : Nat) :
    inlineElements position t =
      .ok (((inlineSegment position t).map Entry.ofElem).map (Entry.bytes T)) := by
  unfold inlineElements inlineSegment
  split
  · rfl
  · rw [indices_of_isNumber (encodable.elements t listed), Option.map_some, Option.map_some,
      Entry.ofElem, Entry.bytes, expressionBytes_zeroOffset, u32_position_ofNat]
    rfl

variable (settled : Settled f (typeTable T))
include settled

/-- An import is written as its entry. -/
theorem importEntry_eq {i : ModuleImport} (listed : i ∈ f.imports) : ∃ n,
    importType i (typeTable T) = .ok (n, typeTable T) ∧
      importEntry i n = (Entry.ofImport i).bytes T := by
  obtain ⟨n, here⟩ := settled.imports i listed
  have written := encodable.imports i listed
  refine ⟨n, here, ?_⟩
  rw [importEntry, Entry.ofImport, Entry.bytes]
  congr 1
  cases descr : i.descr with
  | func d =>
    rw [descr] at written
    rw [importType, descr] at here
    rw [Imported.ofDescr, Imported.bytes, position_of_typeIndex written here]
  | _ => rfl

/-- The body of a function is written as its entry. -/
theorem body_eq {g : Func} (listed : g ∈ f.funcs) : ∃ bytes,
    body g (typeTable T) = .ok (bytes, typeTable T) ∧
      Write.byteVector bytes = (Entry.ofBody g).bytes T := by
  obtain ⟨bytes, here⟩ := settled.bodies g listed
  have grows := grows_expression (fun _ => id) (encodable.bodies g listed)
  obtain ⟨code, written, last⟩ := grows.of_bind (fun _ => grows_pure _) here
  cases last
  refine ⟨_, here, ?_⟩
  rw [Entry.ofBody, Entry.bytes, bodyBytes, expressionBytes_respelledIn,
    expressionBytes_of_settled written]
  rfl

/-- A module whose signatures are listed is written as its entries. -/
theorem spells_entries (single : f.starts.length ≤ 1) : Spells (typeTable T) f (f.entries T) where
  types := by
    rw [ofSection_entries, typesOf_entries, typeTable, Fields.inSection, List.map_map, List.map_map]
    rfl
  imports := by
    rw [ofSection_entries, typesOf_entries]
    exact forall₂_map_self fun i listed => importEntry_eq encodable settled listed
  signatures := by
    rw [ofSection_entries, typesOf_entries]
    refine forall₂_map_self fun g listed => ?_
    obtain ⟨n, here⟩ := settled.signatures g listed
    exact ⟨n, here, by rw [Entry.bytes, position_of_typeIndex (encodable.signatures g listed) here]⟩
  bodies := by
    rw [ofSection_entries, typesOf_entries]
    exact forall₂_map_self fun g listed => body_eq encodable settled listed
  tables := by
    rw [ofSection_entries, typesOf_entries, Fields.inSection, List.map_map]
    rfl
  memories := by
    rw [ofSection_entries, typesOf_entries, Fields.inSection, List.map_map]
    rfl
  globals := by
    rw [ofSection_entries, typesOf_entries]
    refine forall₂_map_self fun g listed => ?_
    rw [globalEntry,
      encode_bind (expression_of_fixed (fixed_expression (fun _ => id) (encodable.inits g listed)))]
    rfl
  exports := by
    rw [ofSection_entries, typesOf_entries]
    refine forall₂_map_self fun e listed => ?_
    rw [exportEntry, index_of_isNumber (encodable.exports e listed)]
    rfl
  starts := by
    rw [ofSection_entries, typesOf_entries]
    exact forall₂_map_self fun i listed => ⟨_, index_of_isNumber (encodable.starts i listed), rfl⟩
  single := single
  elements := by
    rw [ofSection_entries, typesOf_entries]
    refine ⟨f.inlineSegments.map (Option.map Entry.ofElem), f.elems.map Entry.ofElem, ?_, ?_,
      forall₂_map_self fun e listed => elemEntry_eq encodable listed⟩
    · rw [Fields.inSection, Fields.segments, List.map_append, List.filterMap_map, List.map_filterMap]
      rfl
    · rw [Fields.inlineSegments, List.map_map]
      exact forall₂_map_self fun t listed =>
        inlineElements_eq encodable (List.fst_mem_of_mem_zipIdx listed) t.2
  data := by
    rw [ofSection_entries, typesOf_entries]
    refine forall₂_map_self fun d listed => ?_
    obtain ⟨target, offset⟩ := encodable.data d listed
    rw [dataEntry, encode_bind (encode_lift (index_of_isNumber target)),
      encode_bind (expression_of_fixed (fixed_expression (fun _ => id) offset))]
    rfl

end Spells

end Encode

end Binary

end WasmEngine
