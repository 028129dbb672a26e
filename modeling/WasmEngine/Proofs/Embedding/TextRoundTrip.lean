import WasmEngine.Proofs.Binary.FieldDecoding
import WasmEngine.Proofs.Syntax.Equality
import WasmEngine.Proofs.Typing.IndexRanges
import WasmEngine.Wat.Parse

/-!
# Modules of texts are decoded again

A module that was compiled from a text has a binary form.  Where the decoder's limits on locals, offsets,
exports and lengths are kept, the bytes are decoded to a module with the fields of the first
(`Engine.decode_encode_of_compileSource`).
-/

namespace WasmEngine

open Node Outcome Typing

/-! ## What was checked -/

namespace Typing

/-- Constant expressions are plain instructions. -/
theorem plain_of_constantTypes {ctx : ModuleContext} {init : List Node} {ts : List Valtype}
    (passes : constantTypes ctx init = .ok ts) : ∀ node ∈ init, node.IsPlain := by
  induction init generalizing ts with
  | nil => nofun
  | cons first init ih =>
    obtain ⟨ts', rest⟩ := constantTypes_of_cons passes
    refine List.forall_mem_cons.2 ⟨?_, ih rest⟩
    cases first with
    | instr => trivial
    | _ => cases passes

end Typing

/-! ## Modules that the decoder takes -/

namespace Node

/-- An instruction that gives the offset of a segment. -/
inductive IsOffset : Node → Prop
  | const (t : Valtype) (args : List Node) (memArg : Option MemArg) :
    IsOffset (.instr "const" (some t) args memArg)
  | getGlobal (args : List Node) (memArg : Option MemArg) :
    IsOffset (.instr "get_global" none args memArg)

/-- The offset of a segment. -/
def offset? : Node → Option (List Node)
  | .data _ offset _ => some offset
  | .elem _ offset _ => some offset
  | _ => none

end Node

namespace Module

/-- What the decoder asks of a module beyond validation: few locals, a single instruction as the offset of
each segment, and exports of what the module has. -/
structure WithinLimits (m : Module) : Prop where
  locals : ∀ f : Func, f.toNode ∈ m.fields →
    f.locals.length ≤ Binary.Decode.maxLocals ∧ f.localCount < UInt32.size
  offsets : ∀ field ∈ m.fields, ∀ offset, field.offset? = some offset →
    ∃ node, offset = [node] ∧ node.IsOffset
  exports : ∀ e n, .moduleExport e ∈ m.fields → e.descr.id.number? = some n →
    n < m.countOf e.descr.kind

end Module

namespace Binary

open Decode

section Fields

variable {ref : Index → Prop} {m : Module}

/-- Fields with plain expressions outside of functions have a binary form. -/
theorem encodable_ofModule
    (fields : AreFields ref SignatureRef.IsInline (EncodableIn ref SignatureRef.IsInline) m.fields)
    (inits : ∀ type init name, .global type init name ∈ m.fields → ∀ node ∈ init, node.IsPlain)
    (offsets : ∀ field ∈ m.fields, ∀ offset, field.offset? = some offset →
      ∀ node ∈ offset, node.IsPlain) : (Encode.Fields.ofModule m).Encodable ref where
  imports i listed := by
    obtain ⟨field, inside, same⟩ := List.mem_filterMap.1 listed
    cases fields field inside <;> cases same
    assumption
  signatures g listed := by
    obtain ⟨field, inside, same⟩ := List.mem_filterMap.1 listed
    cases fields field inside <;> cases same
    assumption
  bodies g listed := by
    obtain ⟨field, inside, same⟩ := List.mem_filterMap.1 listed
    cases fields field inside <;> cases same
    assumption
  tables t listed := by
    obtain ⟨field, inside, same⟩ := List.mem_filterMap.1 listed
    cases fields field inside <;> cases same
    assumption
  elements t listed := by
    obtain ⟨field, inside, same⟩ := List.mem_filterMap.1 listed
    cases fields field inside <;> cases same
    assumption
  memories t listed := by
    obtain ⟨field, inside, same⟩ := List.mem_filterMap.1 listed
    cases fields field inside <;> cases same
    next limits =>
    refine limits.imp_right fun ⟨n, size, same⟩ => ?_
    obtain ⟨segment, member, size⟩ := List.mem_filterMap.1 size
    cases segment <;> cases size
    exact ⟨_, List.mem_filterMap.2 ⟨_, member, rfl⟩, same⟩
  inits g listed := by
    obtain ⟨field, inside, same⟩ := List.mem_filterMap.1 listed
    cases fields field inside <;> cases same
    next code => exact ⟨code, inits _ _ _ inside⟩
  exports e listed := by
    obtain ⟨field, inside, same⟩ := List.mem_filterMap.1 listed
    cases fields field inside <;> cases same
    assumption
  starts i listed := by
    obtain ⟨field, inside, same⟩ := List.mem_filterMap.1 listed
    cases fields field inside <;> cases same
    assumption
  elems e listed := by
    obtain ⟨field, inside, same⟩ := List.mem_filterMap.1 listed
    cases fields field inside <;> cases same
    next target code all => exact ⟨target, ⟨code, offsets _ inside _ rfl⟩, all⟩
  data d listed := by
    obtain ⟨field, inside, same⟩ := List.mem_filterMap.1 listed
    cases fields field inside <;> cases same
    next target code => exact ⟨target, code, offsets _ inside _ rfl⟩

end Fields

variable {m : Module}

/-- A module with a binary form is encoded as its entries against the type section that it ends with,
which starts with the types that the module declares. -/
theorem exists_entries (encodable : (Encode.Fields.ofModule m).Encodable Index.IsNumber)
    (single : (Encode.Fields.ofModule m).starts.length ≤ 1) :
    ∃ T : List Signature, (∀ s ∈ T, IsAnonymous s) ∧
      (Encode.Fields.ofModule m).types.map (·.functype.funcType) <+: T.map Signature.funcType ∧
      Encode.Settled (.ofModule m) (typeTable T) ∧
      encode m = .ok (moduleBytes ((Encode.Fields.ofModule m).entries T)
        (Encode.functionNames (.ofModule m))) := by
  obtain ⟨bytes, u, written, grown, again⟩ := Encode.exists_settled
    (fun _ number => number) encodable ⟨(Encode.Fields.ofModule m).types.map (·.functype.funcType),
      (Encode.Fields.ofModule m).types.length⟩
  let T : List Signature := u.entries.map fun t => ⟨t.args.map .anonymous, t.result⟩
  have paramTypes (t : FuncType) : (t.args.map Param.anonymous).map Param.valtype = t.args := by
    rw [List.map_map]
    exact List.map_id _
  have same : T.map Signature.funcType = u.entries := by
    rw [List.map_map]
    refine (List.map_congr_left fun t _ => ?_).trans (List.map_id _)
    exact congrArg (FuncType.mk · t.result) (paramTypes t)
  have anonymous : ∀ s ∈ T, IsAnonymous s := List.forall_mem_map.2 fun t _ =>
    congrArg (List.map Param.anonymous) (paramTypes t).symm
  obtain ⟨settled, places⟩ := again (typeTable T) same
  have entries := Encode.module_eq_of_spells (Encode.spells_entries encodable places single)
  obtain ⟨rfl, -⟩ := Prod.mk.inj (Except.ok.inj (settled.symm.trans entries))
  refine ⟨T, anonymous, same ▸ grown, places, ?_⟩
  rw [encode, StateT.run, written]
  rfl

/-- A module of a text with few locals and single instructions as the offsets of data is listed by its type
section. -/
theorem listed_of_limits {T : List Signature} (anonymous : ∀ s ∈ T, IsAnonymous s)
    (settled : Encode.Settled (.ofModule m) (typeTable T))
    (encodable : (Encode.Fields.ofModule m).Encodable Index.IsPosition)
    (locals : ∀ f : Func, f.toNode ∈ m.fields → f.locals.length ≤ Decode.maxLocals)
    (offsets : ∀ target offset init, .data target offset init ∈ m.fields → offset.length = 1)
    (short : ∀ s ∈ sectionsOf ((Encode.Fields.ofModule m).entries T)
      (Encode.functionNames (.ofModule m)), s.2.length < UInt32.size) :
    (Encode.Fields.ofModule m).Listed T where
  encodable := encodable
  settled := settled
  anonymous := anonymous
  locals g listed := by
    obtain ⟨field, inside, same⟩ := List.mem_filterMap.1 listed
    cases field <;> cases same
    exact locals ⟨_, _, _, _, _⟩ inside
  offsets d listed := by
    obtain ⟨field, inside, same⟩ := List.mem_filterMap.1 listed
    cases field <;> cases same
    exact offsets _ _ _ inside
  few := by
    have fits := (fits_of_short short .type).1
    rwa [Encode.ofSection_entries, Encode.Fields.inSection, List.length_map] at fits
  fewTables := importedTables_add m ▸ countOf_of_short short .table
  short x listed := by
    have bytes := bytes_of_short short listed
    rwa [Encode.typesOf_entries] at bytes

/-- The sections of few bytes are short. -/
theorem short_of_length {bytes : List UInt8} {sections : List (UInt8 × List UInt8)}
    (are : bytes = Write.preamble ++ sections.flatMap fun s => Write.sectionOf s.1 s.2)
    (small : bytes.length < UInt32.size) : ∀ s ∈ sections, s.2.length < UInt32.size := by
  intro s listed
  have part := length_le_of_mem (f := fun s => Write.sectionOf s.1 s.2) listed
  have contents := length_le_byteVector s.2
  have total := congrArg List.length are
  rw [List.length_append] at total
  rw [Write.sectionOf, List.length_cons] at part
  omega

end Binary

/-! ## Texts -/

namespace Engine

open Binary

/-- A module that was compiled from a text is written as the entries of its fields against some type section.
Where it keeps the limits of the decoder and its sections are short enough, its fields are listed by that type
section, and it exports what it has. -/
theorem exists_listed {source : String} {m : Module} (accepted : compileSource source = .ok m)
    (plain : ∀ field ∈ m.fields, ∀ offset, field.offset? = some offset → ∀ node ∈ offset, node.IsPlain)
    (locals : ∀ f : Func, f.toNode ∈ m.fields → f.locals.length ≤ Decode.maxLocals ∧ f.localCount < UInt32.size)
    (offsets : ∀ target offset init, .data target offset init ∈ m.fields → offset.length = 1)
    (exports : ∀ e n, .moduleExport e ∈ m.fields → e.descr.id.number? = some n → n < m.countOf e.descr.kind) :
    ∃ T : List Signature,
      (Encode.Fields.ofModule m).types.map (·.functype.funcType) <+: T.map Signature.funcType ∧
      (Encode.Fields.ofModule m).starts.length ≤ 1 ∧
      encode m = .ok (moduleBytes ((Encode.Fields.ofModule m).entries T) (Encode.functionNames (.ofModule m))) ∧
      ((∀ s ∈ sectionsOf ((Encode.Fields.ofModule m).entries T) (Encode.functionNames (.ofModule m)),
          s.2.length < UInt32.size) →
        (∀ kind, m.countOf kind < UInt32.size) ∧ (Encode.Fields.ofModule m).Listed T ∧
          ∀ e ∈ (Encode.Fields.ofModule m).exports, e.descr.id.position < m.countOf e.descr.kind) := by
  obtain ⟨p, read, compiled⟩ := bind_eq_ok_iff.1 accepted
  obtain ⟨node, inside, n, here, resolved, valid⟩ := source_of_compileProgram compiled
  obtain ⟨id, fields, rfl, areFields⟩ := Wat.encodable_of_parse (mapError_eq_ok_iff.1 read) node inside
  cases here
  have single : (Encode.Fields.ofModule m).starts.length ≤ 1 :=
    (Module.interface_of_validate valid).single
  have inits : ∀ type init name, .global type init name ∈ m.fields → ∀ node ∈ init, node.IsPlain := by
    intro type init name member
    exact plain_of_constantTypes (Module.initialiser_of_validate valid member)
  obtain ⟨T, anonymous, declared, settled, written⟩ := exists_entries
    (encodable_ofModule (numbers_of_resolve resolved areFields) inits plain) single
  refine ⟨T, declared, single, written, fun short => ?_⟩
  have few := countOf_of_short short
  have positions := positions_of_resolve resolved areFields few fun f listed => (locals f listed).2
  have listed := listed_of_limits anonymous settled (encodable_ofModule positions inits plain)
    (fun f inside => (locals f inside).1) offsets short
  refine ⟨few, listed, fun e exported => ?_⟩
  obtain ⟨field, member, same⟩ := List.mem_filterMap.1 exported
  cases positions field member <;> cases same
  next holds => exact exports e _ member (Encode.number?_of_isNumber holds.isNumber)

/-- A module that was compiled from a text is written as sections.  Where it keeps the limits of the
decoder and its sections are short enough, the bytes are decoded to its fields. -/
theorem decode_encode_of_compileSource {source : String} {m : Module}
    (accepted : compileSource source = .ok m) (limits : m.WithinLimits) :
    ∃ sections : List (UInt8 × List UInt8),
      encode m = .ok (Write.preamble ++ sections.flatMap fun s => Write.sectionOf s.1 s.2) ∧
      ((∀ s ∈ sections, s.2.length < UInt32.size) →
        ∃ m', Binary.decode .default
            (Write.preamble ++ sections.flatMap fun s => Write.sectionOf s.1 s.2) =
              .ok ⟨[m'.toNode]⟩ ∧
          FieldsRead (.ofModule m) (.ofModule m')) := by
  have plain : ∀ field ∈ m.fields, ∀ offset, field.offset? = some offset →
      ∀ node ∈ offset, node.IsPlain := by
    intro field member offset given node listed
    obtain ⟨first, rfl, holds⟩ := limits.offsets field member offset given
    obtain rfl := List.mem_singleton.1 listed
    cases holds <;> trivial
  have offsets : ∀ target offset init, .data target offset init ∈ m.fields → offset.length = 1 := by
    intro target offset init inside
    obtain ⟨node, single, -⟩ := limits.offsets _ inside _ rfl
    exact congrArg List.length single
  obtain ⟨T, declared, single, written, lists⟩ :=
    exists_listed accepted plain limits.locals offsets limits.exports
  rw [moduleBytes_eq] at written
  refine ⟨_, written, fun short => ?_⟩
  obtain ⟨-, listed, exported⟩ := lists short
  rw [← moduleBytes_eq]
  exact reads_of_listed listed declared short exported single

end Engine

/-! ## A text that imports a function and calls through a table -/

/-- A module that imports `g`, defines and exports `h`, and has both in its table, given references to the
two.  The call through the table names a parameter of the function that it calls. -/
def dispatcher (g h : Index) : Module :=
  ⟨none, [
    .moduleImport ⟨"m", "f", .func ⟨.ofString "g", .inline ⟨[], []⟩⟩, none⟩,
    .table ⟨"anyfunc", ⟨1, some 1⟩, some (.synthesized "table_0"), [h]⟩,
    .func (.ofString "h") (.inline ⟨[], []⟩) [⟨none, .i32⟩]
      [.instr "const" (some .i32) [.number (.ofInt 1)] none,
        .instr "const" (some .i32) [.number (.ofInt 0)] none,
        .callIndirect (.inline ⟨[⟨some "x", .i32⟩], []⟩)] none,
    .moduleExport ⟨"h", ⟨.func, h⟩⟩,
    .elem (.ofNat 0) [.instr "const" (some .i32) [.number (.ofInt 0)] none] [g]], none⟩

/-- The text of `dispatcher`. -/
def dispatcherText : String :=
  "(module (import \"m\" \"f\" (func $g)) (table anyfunc (elem $h)) " ++
    "(func $h (export \"h\") (local i32) " ++
    "(call_indirect (param $x i32) (i32.const 1) (i32.const 0))) (elem (i32.const 0) $g))"

theorem compileSource_dispatcherText :
    Engine.compileSource dispatcherText = .ok (dispatcher (.ofNat 0) (.ofNat 1)) := by
  have parsed : Wat.parse dispatcherText =
      .ok ⟨[(dispatcher (.identifier (.ofString "g")) (.identifier (.ofString "h"))).toNode]⟩ :=
    (Wat.parse_of_toList (Wat.toList_append_ofList (Wat.toList_append_ofList String.toList_ofList _) _)).trans
      (by decide +kernel)
  rw [Engine.compileSource, Engine.parse, parsed]
  rfl

theorem withinLimits_dispatcher : (dispatcher (.ofNat 0) (.ofNat 1)).WithinLimits where
  locals f listed := by
    have here : f ∈ (dispatcher (.ofNat 0) (.ofNat 1)).fields.filterMap func? :=
      List.mem_filterMap.2 ⟨_, listed, rfl⟩
    obtain rfl := List.mem_singleton.1 here
    decide
  offsets field listed offset given := by
    have here : offset ∈ (dispatcher (.ofNat 0) (.ofNat 1)).fields.filterMap offset? :=
      List.mem_filterMap.2 ⟨_, listed, given⟩
    obtain rfl := List.mem_singleton.1 here
    exact ⟨_, rfl, .const ..⟩
  exports e n listed number := by
    have here : e ∈ (Binary.Encode.Fields.ofModule (dispatcher (.ofNat 0) (.ofNat 1))).exports :=
      List.mem_filterMap.2 ⟨_, listed, rfl⟩
    obtain rfl := List.mem_singleton.1 here
    cases number
    decide

/-- The binary form of `dispatcher`. -/
def dispatcherBytes : List UInt8 :=
  [0x00, 0x61, 0x73, 0x6d, 0x01, 0x00, 0x00, 0x00,
    0x01, 0x08, 0x02, 0x60, 0x00, 0x00, 0x60, 0x01, 0x7f, 0x00,
    0x02, 0x07, 0x01, 0x01, 0x6d, 0x01, 0x66, 0x00, 0x00,
    0x03, 0x02, 0x01, 0x00,
    0x04, 0x05, 0x01, 0x70, 0x01, 0x01, 0x01,
    0x07, 0x05, 0x01, 0x01, 0x68, 0x00, 0x01,
    0x09, 0x0d, 0x02, 0x00, 0x41, 0x00, 0x0b, 0x01, 0x01, 0x00, 0x41, 0x00, 0x0b, 0x01, 0x00,
    0x0a, 0x0d, 0x01, 0x0b, 0x01, 0x01, 0x7f, 0x41, 0x01, 0x41, 0x00, 0x11, 0x01, 0x00, 0x0b,
    0x00, 0x0b, 0x04, 0x6e, 0x61, 0x6d, 0x65, 0x01, 0x04, 0x01, 0x01, 0x01, 0x68]

theorem encode_dispatcher :
    Binary.encode (dispatcher (.ofNat 0) (.ofNat 1)) = .ok dispatcherBytes := by decide +kernel

theorem decode_encode_dispatcher :
    Engine.compileSource dispatcherText = .ok (dispatcher (.ofNat 0) (.ofNat 1)) ∧
    (dispatcher (.ofNat 0) (.ofNat 1)).WithinLimits ∧
    ∃ m', Binary.decode .default dispatcherBytes = .ok ⟨[m'.toNode]⟩ ∧
      Binary.FieldsRead (.ofModule (dispatcher (.ofNat 0) (.ofNat 1))) (.ofModule m') := by
  obtain ⟨sections, written, reads⟩ :=
    Engine.decode_encode_of_compileSource compileSource_dispatcherText withinLimits_dispatcher
  have bytes := Except.ok.inj (encode_dispatcher.symm.trans written)
  exact ⟨compileSource_dispatcherText, withinLimits_dispatcher,
    bytes ▸ reads (Binary.short_of_length bytes (by decide))⟩

/-- What is decoded of `dispatcher`. -/
def decodedDispatcher : Module :=
  ⟨none, [
    .typeDef ⟨none, ⟨[], []⟩⟩,
    .typeDef ⟨none, ⟨[⟨none, .i32⟩], []⟩⟩,
    .moduleImport ⟨"m", "f", .func ⟨.ofString "f", .inline ⟨[], []⟩⟩, none⟩,
    .table ⟨"anyfunc", ⟨1, some 1⟩, some ⟨"table_0", "0"⟩, []⟩,
    .elem (.ofNat 0) [.instr "const" (some .i32) [.number (.ofInt 0)] none] [.ofNat 1],
    .elem (.ofNat 0) [.instr "const" (some .i32) [.number (.ofInt 0)] none] [.ofNat 0],
    .func (.ofString "h") (.inline ⟨[], []⟩) [⟨none, .i32⟩]
      [.instr "const" (some .i32) [.number (.ofInt 1)] none,
        .instr "const" (some .i32) [.number (.ofInt 0)] none,
        .callIndirect (.inline ⟨[⟨none, .i32⟩], []⟩)] (some ⟨11⟩),
    .moduleExport ⟨"h", ⟨.func, .ofNat 1⟩⟩],
    some ⟨[("type", 8, 8, 2), ("import", 18, 7, 1), ("func", 27, 2, 1), ("table", 31, 5, 1),
        ("export", 38, 5, 1), ("element", 45, 13, 2), ("code", 60, 13, 1), ("custom", 75, 11, 0)].map
          fun (title, first, size, count) => ⟨title, first, .ofInt size, .ofInt count⟩,
      [⟨"h", 1⟩], [], none⟩⟩

/-- An imported function loses the name that the text gives it, and so does the parameter that a call
through a table names. -/
theorem renamed_dispatcher : ∃ m bytes m', Engine.compileSource dispatcherText = .ok m ∧
    m.WithinLimits ∧ Binary.encode m = .ok bytes ∧ bytes.length < UInt32.size ∧
    Binary.decode .default bytes = .ok ⟨[m'.toNode]⟩ ∧
    (¬ ∀ i ∈ (Binary.Encode.Fields.ofModule m).imports, ∀ d, i.descr = .func d →
      ∃ i' ∈ (Binary.Encode.Fields.ofModule m').imports, ∃ d', i'.descr = .func d' ∧
        d'.id.value = d.id.value) ∧
    ¬ ∀ g ∈ (Binary.Encode.Fields.ofModule m).funcs, ∀ s, .callIndirect s ∈ g.body →
      ∃ g' ∈ (Binary.Encode.Fields.ofModule m').funcs, .callIndirect s ∈ g'.body := by
  have decoded : Binary.decode .default dispatcherBytes = .ok ⟨[decodedDispatcher.toNode]⟩ := by decide +kernel
  refine ⟨_, _, _, compileSource_dispatcherText, withinLimits_dispatcher, encode_dispatcher, by decide, decoded,
    fun names => ?_, fun calls => ?_⟩
  · obtain ⟨i', inside, d', descr, same⟩ := names _ List.mem_cons_self _ rfl
    obtain rfl := List.mem_singleton.1 inside
    cases descr
    exact absurd same (by decide)
  · obtain ⟨g', inside, call⟩ := calls _ List.mem_cons_self _
      (List.mem_cons_of_mem _ (List.mem_cons_of_mem _ List.mem_cons_self))
    obtain rfl := List.mem_singleton.1 inside
    simp at call

end WasmEngine
