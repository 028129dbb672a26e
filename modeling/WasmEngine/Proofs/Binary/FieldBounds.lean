import WasmEngine.Proofs.Binary.FieldEntries
import WasmEngine.Proofs.Binary.RoundTrip

/-!
# Modules that are short enough

What is written of the parts of a section is no longer than what is written of the section.  The entries
of a module whose sections take fewer bytes than 32 bits count are read again (`writable_entries`).
-/

namespace WasmEngine.Binary

open Node Decode

/-! ## Lengths -/

section Lengths

variable {T : List Signature} {id : SectionId} {xs es : List Entry} {fs : List FunctionName}

theorem length_le_byteVector (bytes : List UInt8) : bytes.length ≤ (Write.byteVector bytes).length := by
  rw [Write.byteVector, List.length_append]
  exact Nat.le_add_left _ _

theorem length_byteVector_pos (bytes : List UInt8) : 0 < (Write.byteVector bytes).length := by
  have some_ := Leb128.length_encodeUnsigned_pos (bytes.length % UInt32.size)
  rw [Write.byteVector, List.length_append, Write.unsigned]
  omega

/-- An item takes no more bytes than all items do. -/
theorem length_le_of_mem {α : Type} {f : α → List UInt8} {a : α} {as : List α} (listed : a ∈ as) :
    (f a).length ≤ (as.flatMap f).length := by
  have part := ((List.singleton_sublist.2 listed).flatMap f).length_le
  rwa [List.flatMap_singleton] at part

theorem two_le_length_limits (l : Limits) : 2 ≤ (Encode.limits l).length := by
  have some_ := length_u32_pos l.min
  unfold Encode.limits
  split
  · rw [List.length_cons, List.length_append]
    omega
  · rw [List.length_cons]
    omega

/-- Each entry takes a byte. -/
theorem length_bytes_pos (T : List Signature) (x : Entry) : 0 < (x.bytes T).length := by
  cases x with
  | type | table | global => exact Nat.succ_pos _
  | memory l => exact Nat.lt_of_lt_of_le Nat.zero_lt_two (two_le_length_limits l)
  | func s => exact length_u32_pos _
  | start index => exact length_u32_pos _
  | code c => exact length_byteVector_pos _
  | imported module name what =>
    have some_ := length_byteVector_pos (Text.utf8Bytes module)
    rw [Entry.bytes, List.length_append, List.length_append, Write.name]
    omega
  | exported name kind index =>
    rw [Entry.bytes, List.length_append, List.length_cons]
    omega
  | elem target offset funcs =>
    have some_ := length_u32_pos target
    rw [Entry.bytes, List.length_append, List.length_append]
    omega
  | data target offset values =>
    have some_ := length_u32_pos target
    rw [Entry.bytes, List.length_append, List.length_append]
    omega

/-- An import takes four bytes: two lengths, the kind, and at least one more. -/
theorem four_le_length_imported {x : Entry} (home : x.home = .imports) : 4 ≤ (x.bytes T).length := by
  cases x with
  | imported module name what =>
    have first := length_byteVector_pos (Text.utf8Bytes module)
    have second := length_byteVector_pos (Text.utf8Bytes name)
    have third : 2 ≤ (what.bytes T).length := by
      cases what with
      | func s =>
        have some_ := length_u32_pos (position T s)
        rw [Imported.bytes, List.length_cons]
        omega
      | table l => exact Nat.le_add_left 2 _
      | memory l =>
        have some_ := two_le_length_limits l
        rw [Imported.bytes, List.length_cons]
        omega
      | global t => exact Nat.le_succ 2
    rw [Entry.bytes, List.length_append, List.length_append, Write.name, Write.name]
    omega
  | _ => cases home

/-- A definition with an index takes two bytes at least, where the body stands for a function. -/
theorem two_le_length_defined {x : Entry}
    (home : x.home = .code ∨ x.home = .table ∨ x.home = .memory ∨ x.home = .global) :
    2 ≤ (x.bytes T).length := by
  cases x with
  | code c =>
    have size := Leb128.length_encodeUnsigned_pos ((bodyBytes T c).length % UInt32.size)
    have some_ := length_u32_pos (Encode.runs c.locals).length
    have body : (Encode.u32 (Encode.runs c.locals).length).length ≤ (bodyBytes T c).length := by
      rw [bodyBytes, List.length_append, localsBytes, Encode.vector, List.length_append]
      omega
    rw [Entry.bytes, Write.byteVector, List.length_append, Write.unsigned]
    omega
  | table l =>
    have some_ := two_le_length_limits l
    rw [Entry.bytes, tableBytes, List.length_cons]
    omega
  | memory l => exact two_le_length_limits l
  | global t init => exact Nat.le_add_left 2 _
  | _ => simp at home

/-- An entry takes no more bytes than its section. -/
theorem length_bytes_le (id : SectionId) {x : Entry} (listed : x ∈ xs) :
    (x.bytes T).length ≤ (sectionContents T id xs).length := by
  have part := length_le_of_mem (f := Entry.bytes T) listed
  unfold sectionContents
  split_ifs
  · exact part
  · rw [List.length_append]
    omega

/-- The sections of entries and names of functions, each with its number. -/
def sectionsOf (es : List Entry) (fs : List FunctionName) : List (UInt8 × List UInt8) :=
  (SectionId.ordered.filter fun id => !(ofSection id es).isEmpty).map
    (fun id => (id.toByte, sectionContents (typesOf es) id (ofSection id es))) ++
    if fs.isEmpty then [] else [(SectionId.custom.toByte, nameContents fs)]

/-- The bytes of a module are its sections that have entries, one after the other. -/
theorem moduleBytes_eq (es : List Entry) (fs : List FunctionName) : moduleBytes es fs =
    Write.preamble ++ (sectionsOf es fs).flatMap fun s => Write.sectionOf s.1 s.2 := by
  have sections (ids : List SectionId) :
      ids.flatMap (fun id => sectionBytes (typesOf es) id (ofSection id es)) =
        ((ids.filter fun id => !(ofSection id es).isEmpty).map
          fun id => (id.toByte, sectionContents (typesOf es) id (ofSection id es))).flatMap
            fun s => Write.sectionOf s.1 s.2 := by
    induction ids with
    | nil => rfl
    | cons id ids ih =>
      rw [List.flatMap_cons, List.filter_cons, ih, sectionBytes]
      cases (ofSection id es).isEmpty <;> rfl
  have names : nameSectionBytes fs =
      (if fs.isEmpty then [] else [(SectionId.custom.toByte, nameContents fs)]).flatMap
        fun s => Write.sectionOf s.1 s.2 := by
    unfold nameSectionBytes
    split
    · rfl
    · rw [List.flatMap_singleton]
  rw [moduleBytes, sectionsOf, sections, names, List.flatMap_append, List.append_assoc]

variable (short : ∀ s ∈ sectionsOf es fs, s.2.length < UInt32.size)
include short

/-- Short sections have short contents. -/
theorem contents_of_short (id : SectionId) :
    (sectionContents (typesOf es) id (ofSection id es)).length < UInt32.size := by
  cases filled : ofSection id es with
  | nil =>
    unfold sectionContents
    split_ifs
    · exact Nat.zero_lt_succ _
    · rw [List.length_nil, u32_zero, List.flatMap_nil, List.append_nil]
      exact (by decide : 1 < UInt32.size)
  | cons x xs =>
    have home := (mem_ofSection.1 (filled ▸ List.mem_cons_self : x ∈ ofSection id es)).2
    have ordered : id ∈ SectionId.ordered := by
      subst home
      cases x <;> simp [SectionId.ordered]
    have some_ : (!(ofSection id es).isEmpty) = true := by rw [filled]; rfl
    rw [← filled]
    exact short _ (List.mem_append_left _
      (List.mem_map_of_mem (List.mem_filter.2 ⟨ordered, some_⟩)))

/-- A section of entries of at least `k` bytes each has few entries. -/
theorem length_ofSection_le (id : SectionId) {k : Nat} (notStart : id ≠ .start)
    (each : ∀ x ∈ ofSection id es, k ≤ (x.bytes (typesOf es)).length) :
    k * (ofSection id es).length < UInt32.size := by
  have contents := contents_of_short short id
  have count := mul_length_le_flatMap each
  rw [sectionContents, if_neg notStart, List.length_append] at contents
  omega

/-- The counts and sizes in short sections take 32 bits. -/
theorem fits_of_short (id : SectionId) : Fits (typesOf es) id (ofSection id es) := by
  have contents := contents_of_short short id
  have count : (ofSection id es).length ≤
      ((ofSection id es).flatMap (Entry.bytes (typesOf es))).length :=
    length_le_flatMap fun x _ => length_bytes_pos _ x
  refine ⟨?_, contents⟩
  unfold sectionContents at contents
  split_ifs at contents
  · omega
  · rw [List.length_append] at contents
    omega

/-- The entries of short sections are short. -/
theorem bytes_of_short {x : Entry} (listed : x ∈ es) : (x.bytes (typesOf es)).length < UInt32.size := by
  have part := length_bytes_le x.home (T := typesOf es) (mem_ofSection.2 ⟨listed, rfl⟩)
  have contents := contents_of_short short x.home
  omega

/-- The names of functions take few bytes. -/
theorem namesFit_of_short : (nameContents fs).length < UInt32.size := by
  cases fs with
  | nil => exact length_nameContents (by decide)
  | cons f fs => exact short _ (List.mem_append_right _ List.mem_cons_self)

/-- A name in a short section is a text of few bytes. -/
theorem isName_of_short {f : FunctionName} (listed : f ∈ fs) : Read.IsName f.value := by
  have fits := namesFit_of_short short
  have name := length_le_byteVector (Text.utf8Bytes f.value)
  have part := length_le_of_mem (f := functionNameBytes) listed
  have vector := length_le_byteVector (namesBytes fs)
  have names : (fs.flatMap functionNameBytes).length ≤ (namesBytes fs).length := by
    rw [namesBytes, Encode.vector, List.length_append]
    exact Nat.le_add_left _ _
  rw [functionNameBytes, List.length_append, Write.name] at part
  rw [nameContents, List.length_append, List.length_cons] at fits
  rw [Read.IsName]
  omega

end Lengths

/-! ## Entries -/

section Entries

variable {f : Encode.Fields} {T : List Signature}

/-- The entries of a section are entries of the module. -/
theorem mem_inSection (id : SectionId) {x : Entry} (listed : x ∈ f.inSection T id) :
    x ∈ f.entries T := by
  rw [← Encode.ofSection_entries] at listed
  exact (mem_ofSection.1 listed).1

/-- A signature that the type section lists is known by its number. -/
theorem known_of_typeIndex (few : T.length < UInt32.size) (anonymous : ∀ s ∈ T, IsAnonymous s)
    {sig : SignatureRef} (inline : sig.IsInline) {i : Nat}
    (settled : Encode.typeIndex sig (typeTable T) = .ok (i, typeTable T)) : Known T sig.signature := by
  have here := Encode.position_of_typeIndex inline settled
  obtain ⟨s, rfl⟩ := inline
  have placed := placed_of_typeIndex anonymous settled
  rw [Known, here]
  exact ⟨placed, Nat.lt_trans (lt_of_placed placed) few⟩

/-- The position of an index is a number of 32 bits, and the index is spelled as this number. -/
theorem position_of_isPosition {i : Index} (holds : i.IsPosition) :
    i.position < UInt32.size ∧ i.respelled = .ofNat i.position := by
  obtain ⟨n, fits, same⟩ := exists_ofNat holds
  have here : i.position = n := by
    cases i with
    | number l =>
      obtain ⟨k, value, fits'⟩ := holds
      rw [Index.respelled, NumberLiteral.respelled, Index.ofNat, Index.number.injEq] at same
      have value' : l.value = n := congrArg NumberLiteral.value same
      show (l.value % UInt32.size).toNat = n
      rw [value', Int.emod_eq_of_lt (by omega) (by omega), Int.toNat_natCast]
    | identifier => cases holds
  rw [here]
  exact ⟨fits, same⟩

/-- A module whose signatures are listed, with few enough locals in each function and single
instructions as the offsets of data. -/
structure Encode.Fields.Listed (f : Encode.Fields) (T : List Signature) : Prop where
  encodable : f.Encodable Index.IsPosition
  settled : Encode.Settled f (typeTable T)
  anonymous : ∀ s ∈ T, IsAnonymous s
  locals : ∀ g ∈ f.funcs, g.locals.length ≤ maxLocals
  offsets : ∀ d ∈ f.data, d.2.1.length = 1
  few : T.length < UInt32.size
  fewTables : f.importedTables + f.tables.length < UInt32.size
  short : ∀ x ∈ f.entries T, (x.bytes T).length < UInt32.size

theorem encodable_zeroOffset (ref : Index → Prop) : Encode.IsPlainCode ref Encode.zeroOffset := by
  have zero : (⟨0x41, some .i32, "const"⟩ : Opcode) ∈ Opcode.table := by decide
  refine ⟨List.forall_mem_singleton.2 (.instr zero (by decide) (by decide) rfl (.i32 ?_)),
    List.forall_mem_singleton.2 trivial⟩
  rw [Leb128.Fits]
  decide

theorem isPosition_ofNat {n : Nat} (fits : n < UInt32.size) : (Index.ofNat n).IsPosition :=
  ⟨n, rfl, fits⟩

/-- The segments of a module, those of its tables included, have tables, offsets and functions that can be
spelled. -/
theorem encodable_of_segment (encodable : f.Encodable Index.IsPosition)
    (fewTables : f.importedTables + f.tables.length < UInt32.size)
    {e : Index × List Node × List Index} (inside : e ∈ f.segments) : e.1.IsPosition ∧
      Encode.IsPlainCode Index.IsPosition e.2.1 ∧ ∀ i ∈ e.2.2, i.IsPosition := by
  obtain inline | inside := List.mem_append.1 inside
  · obtain ⟨_, inline, same⟩ := List.mem_filterMap.1 inline
    obtain ⟨⟨t, k⟩, here, rfl⟩ := List.mem_map.1 inline
    unfold Encode.inlineSegment at same
    dsimp only [id] at same
    split_ifs at same
    cases same
    have range := List.mem_zipIdx here
    exact ⟨isPosition_ofNat (by omega), encodable_zeroOffset _,
      encodable.elements t (List.fst_mem_of_mem_zipIdx here)⟩
  · exact encodable.elems e inside

/-- The elements of a table are a segment, if there are any. -/
theorem Encode.segment_of_table {t : TableDef} (inside : t ∈ f.tables) :
    t.elements = [] ∨ ∃ k, (.ofNat k, zeroOffset, t.elements) ∈ f.segments := by
  obtain ⟨k, listed⟩ : ∃ k, (t, k) ∈ f.tables.zipIdx f.importedTables := by
    rw [← List.zipIdx_map_fst f.importedTables f.tables] at inside
    obtain ⟨⟨t', k⟩, listed, rfl⟩ := List.mem_map.1 inside
    exact ⟨k, listed⟩
  cases filled : t.elements.isEmpty with
  | true => exact .inl (List.isEmpty_iff.1 filled)
  | false =>
    have given : inlineSegment k t = some (.ofNat k, zeroOffset, t.elements) := by
      rw [inlineSegment, filled, if_neg Bool.false_ne_true]
    exact .inr ⟨k, List.mem_append_left _
      (List.mem_filterMap.2 ⟨_, List.mem_map.2 ⟨_, listed, rfl⟩, given⟩)⟩

theorem length_runBytes_pos (r : Nat × Valtype) : 0 < (Encode.runBytes r).length := by
  rw [Encode.runBytes, List.length_append]
  exact Nat.succ_pos _

section Fine

variable (listed : f.Listed T)
include listed

/-- Plain code with positions can be spelled. -/
theorem isExpression_of_plain {nodes : List Node} (plain : Encode.IsPlainCode Index.IsPosition nodes)
    (short : (expressionBytes T (respelledIn nodes)).length < UInt32.size) :
    IsExpression T (respelledIn nodes) :=
  isExpression_of_settled listed.few listed.anonymous plain.1
    (Encode.expression_of_fixed
      (Encode.fixed_expression (fun _ position => Index.IsPosition.isNumber position) plain)) short

/-- The types of the type section can be spelled. -/
theorem fine_type {s : Signature} (inside : s ∈ T) : (Entry.type s).Fine T := by
  have short := listed.short (.type s) (mem_inSection .type (List.mem_map_of_mem inside))
  rw [Entry.bytes, Encode.funcType, List.length_cons, List.length_append, Encode.valtypes,
    Encode.valtypes, List.length_append, List.length_append, List.length_map, List.length_map] at short
  have params : s.params.length = s.funcType.args.length := (List.length_map ..).symm
  have results : s.results.length = s.funcType.result.length := rfl
  exact ⟨listed.anonymous s inside, by omega, by omega⟩

/-- The imports of a module can be spelled. -/
theorem fine_imported {i : ModuleImport} (inside : i ∈ f.imports) : (Entry.ofImport i).Fine T := by
  have short := listed.short _ (mem_inSection .imports (List.mem_map_of_mem inside))
  have module := length_le_byteVector (Text.utf8Bytes i.module)
  have name := length_le_byteVector (Text.utf8Bytes i.name)
  rw [Entry.ofImport, Entry.bytes, List.length_append, List.length_append, Write.name,
    Write.name] at short
  refine ⟨by rw [Read.IsName]; omega, by rw [Read.IsName]; omega, ?_⟩
  have written := listed.encodable.imports i inside
  obtain ⟨n, settled⟩ := listed.settled.imports i inside
  cases descr : i.descr with
  | func d =>
    rw [descr] at written
    rw [Encode.importType, descr] at settled
    exact known_of_typeIndex listed.few listed.anonymous written settled
  | table t =>
    rw [descr] at written
    exact written
  | memory m =>
    rw [descr] at written
    exact written
  | global t => trivial

/-- The bodies of a module can be spelled. -/
theorem fine_code {g : Func} (inside : g ∈ f.funcs) : (Entry.ofBody g).Fine T := by
  have short := listed.short _ (mem_inSection .code (List.mem_map_of_mem inside))
  have bytes := length_le_byteVector (bodyBytes T ⟨respelledIn g.body, g.locals.map Param.valtype, 0⟩)
  have runs : (Encode.runs (g.locals.map Param.valtype)).length ≤
      (localsBytes (g.locals.map Param.valtype)).length := by
    have count := length_le_flatMap fun r (_ : r ∈ Encode.runs (g.locals.map Param.valtype)) =>
      length_runBytes_pos r
    rw [localsBytes, Encode.vector, List.length_append]
    omega
  obtain ⟨all, settled⟩ := listed.settled.bodies g inside
  have encodable := listed.encodable.bodies g inside
  have grows := Encode.grows_expression (fun _ position => Index.IsPosition.isNumber position) encodable
  obtain ⟨code, written, -⟩ := grows.of_bind (fun _ => Encode.grows_pure _) settled
  have same := expressionBytes_of_settled written
  rw [← expressionBytes_respelledIn] at same
  rw [Entry.ofBody, Entry.bytes] at short
  have parts : (localsBytes (g.locals.map Param.valtype)).length + code.length =
      (bodyBytes T ⟨respelledIn g.body, g.locals.map Param.valtype, 0⟩).length := by
    rw [bodyBytes, List.length_append, same]
  have few : (Encode.runs (g.locals.map Param.valtype)).length < UInt32.size := by omega
  exact ⟨by rw [List.length_map]; exact listed.locals g inside, few,
    isExpression_of_settled listed.few listed.anonymous encodable written (by omega), by omega⟩

/-- The element segments of a module can be spelled. -/
theorem fine_segment {e : Index × List Node × List Index} (inside : e ∈ f.segments) :
    (Entry.ofElem e).Fine T := by
  have short := listed.short _ (mem_inSection .element (List.mem_map_of_mem inside))
  have count := length_le_flatMap fun n (_ : n ∈ e.2.2.map Index.position) => length_u32_pos n
  obtain ⟨target, offset, all⟩ := encodable_of_segment listed.encodable listed.fewTables inside
  rw [Entry.ofElem, Entry.bytes, List.length_append, List.length_append, Encode.vector,
    List.length_append] at short
  refine ⟨(position_of_isPosition target).1, isExpression_of_plain listed offset (by omega), by omega,
    fun n member => ?_⟩
  obtain ⟨i, here, rfl⟩ := List.mem_map.1 member
  exact (position_of_isPosition (all i here)).1

/-- The limits of tables can be spelled. -/
theorem fine_table {t : TableDef} (inside : t ∈ f.tables) : IsLimits t.limits := by
  obtain limits | same := listed.encodable.tables t inside
  · exact limits
  · have few : t.elements.length < UInt32.size := by
      obtain none | ⟨k, segment⟩ := Encode.segment_of_table inside
      · rw [none]
        decide
      · have fits := (fine_segment listed segment).2.2.1
        rwa [List.length_map] at fits
    rw [same]
    exact ⟨few, fun max given => Option.some.inj given ▸ few⟩

/-- The data segments of a module can be spelled. -/
theorem fine_data {d : Index × List Node × List UInt8} (inside : d ∈ f.data) :
    (Entry.ofData d).Fine T := by
  have short := listed.short _ (mem_inSection .data (List.mem_map_of_mem inside))
  have bytes := length_le_byteVector d.2.2
  obtain ⟨target, offset⟩ := listed.encodable.data d inside
  rw [Entry.ofData, Entry.bytes, List.length_append, List.length_append] at short
  refine ⟨(position_of_isPosition target).1, isExpression_of_plain listed offset (by omega), ?_,
    by omega⟩
  rw [length_respelledIn, listed.offsets d inside]

theorem fine_memory {m : MemoryDef} (inside : m ∈ f.memories) : IsLimits m.limits := by
  obtain limits | ⟨d, member, same⟩ := listed.encodable.memories m inside
  · exact limits
  · have few : d.2.2.length < UInt32.size := (fine_data listed member).2.2.2
    have pages : (d.2.2.length + 0xffff) / 0x10000 < UInt32.size := by
      simp only [UInt32.size] at few ⊢
      omega
    rw [same]
    exact ⟨pages, fun max given => Option.some.inj given ▸ pages⟩

/-- Whatever a module has can be spelled, section by section. -/
theorem fine_entries : ∀ x ∈ f.entries T, x.Fine T := by
  intro x inside
  obtain ⟨id, -, inside⟩ := List.mem_flatMap.1 inside
  cases id with
  | custom => cases inside
  | type =>
    obtain ⟨s, here, rfl⟩ := List.mem_map.1 inside
    exact fine_type listed here
  | imports =>
    obtain ⟨i, here, rfl⟩ := List.mem_map.1 inside
    exact fine_imported listed here
  | function =>
    obtain ⟨g, here, rfl⟩ := List.mem_map.1 inside
    obtain ⟨n, settled⟩ := listed.settled.signatures g here
    exact known_of_typeIndex listed.few listed.anonymous (listed.encodable.signatures g here) settled
  | table =>
    obtain ⟨t, here, rfl⟩ := List.mem_map.1 inside
    exact fine_table listed here
  | memory =>
    obtain ⟨m, here, rfl⟩ := List.mem_map.1 inside
    exact fine_memory listed here
  | global =>
    have short := listed.short x (mem_inSection _ inside)
    obtain ⟨g, here, rfl⟩ := List.mem_map.1 inside
    rw [Entry.ofGlobal, Entry.bytes, List.length_append] at short
    exact isExpression_of_plain listed (listed.encodable.inits g here) (by omega)
  | exports =>
    have short := listed.short x (mem_inSection _ inside)
    obtain ⟨e, here, rfl⟩ := List.mem_map.1 inside
    have name := length_le_byteVector (Text.utf8Bytes e.name)
    rw [Entry.ofExport, Entry.bytes, List.length_append, Write.name] at short
    exact ⟨by rw [Read.IsName]; omega,
      (position_of_isPosition (listed.encodable.exports e here)).1⟩
  | start =>
    obtain ⟨i, here, rfl⟩ := List.mem_map.1 inside
    exact (position_of_isPosition (listed.encodable.starts i here)).1
  | element =>
    obtain ⟨e, here, rfl⟩ := List.mem_map.1 inside
    exact fine_segment listed here
  | code =>
    obtain ⟨g, here, rfl⟩ := List.mem_map.1 inside
    exact fine_code listed here
  | data =>
    obtain ⟨d, here, rfl⟩ := List.mem_map.1 inside
    exact fine_data listed here

end Fine

end Entries

/-! ## Modules -/

/-- An import that is written brings in what it declares. -/
theorem hasKind_ofImport (i : ModuleImport) (kind : ExportKind) :
    (Entry.ofImport i).hasKind kind = ((Node.moduleImport i).defines == some kind) := by
  obtain ⟨m, name, descr, id⟩ := i
  cases descr <;> rfl

/-- The entries of a module take the indices of its imports and definitions. -/
theorem countOf_sections (f : Encode.Fields) (T : List Signature) (kind : ExportKind) :
    countOf kind (f.entries T) =
      f.imports.countP (fun i => (Node.moduleImport i).defines == some kind) +
        (if kind = .func then f.funcs.length else 0) + (if kind = .table then f.tables.length else 0) +
        (if kind = .memory then f.memories.length else 0) +
        if kind = .global then f.globals.length else 0 := by
  simp only [countOf, Encode.Fields.entries, SectionId.ordered, List.flatMap_cons, List.flatMap_nil,
    List.append_nil, List.countP_append, Encode.Fields.inSection, List.countP_map, Function.comp_def,
    hasKind_ofImport]
  cases kind <;>
    simp [Entry.hasKind, Entry.ofGlobal, Entry.ofExport, Entry.ofElem, Entry.ofBody, Entry.ofData,
      beq_eq_decide]

/-- The entries of a module fill its index spaces. -/
theorem countOf_entries (m : Module) (T : List Signature) (kind : ExportKind) :
    countOf kind ((Encode.Fields.ofModule m).entries T) = m.countOf kind := by
  obtain ⟨id, fields, metadata⟩ := m
  rw [countOf_sections, Module.countOf]
  induction fields with
  | nil => cases kind <;> rfl
  | cons field fields ih =>
    rw [definedIn_cons, ← ih]
    cases field with
    | moduleImport decl =>
      simp only [Encode.Fields.ofModule, List.filterMap_cons, List.countP_cons, beq_iff_eq, func?]
      omega
    | func | global | memory | table =>
      simp only [Encode.Fields.ofModule, List.filterMap_cons, defines, func?, List.length_cons]
      cases kind <;> simp only [reduceCtorEq, reduceIte, Option.some.injEq] <;> omega
    | _ => exact (Nat.zero_add _).symm

theorem length_filter_imports {imports : List ModuleImport} {p : ModuleImport → Bool} {k : ExportKind}
    (same : ∀ i, p i = ((Node.moduleImport i).defines == some k)) : (imports.filter p).length =
      imports.countP fun i => (Node.moduleImport i).defines == some k := by
  rw [← List.countP_eq_length_filter, funext same]

/-- Functions are imported or defined. -/
theorem importedFuncs_add (m : Module) : (Encode.Fields.ofModule m).importedFuncs +
    (Encode.Fields.ofModule m).funcs.length = m.countOf .func := by
  have all := countOf_sections (.ofModule m) [] .func
  rw [countOf_entries] at all
  rw [all, Encode.Fields.importedFuncs, length_filter_imports (k := .func)]
  · simp
  · rintro ⟨module, name, descr, id⟩
    cases descr <;> simp [defines]

/-- Tables are imported or defined. -/
theorem importedTables_add (m : Module) : (Encode.Fields.ofModule m).importedTables +
    (Encode.Fields.ofModule m).tables.length = m.countOf .table := by
  have all := countOf_sections (.ofModule m) [] .table
  rw [countOf_entries] at all
  rw [all, Encode.Fields.importedTables, length_filter_imports (k := .table)]
  · simp
  · rintro ⟨module, name, descr, id⟩
    cases descr <;> simp [defines]

/-- The names that are written are those of functions that there are. -/
theorem mem_functionNames {f : Encode.Fields} {name : FunctionName}
    (listed : name ∈ Encode.functionNames f) : name.index < f.importedFuncs + f.funcs.length := by
  obtain ⟨⟨g, k⟩, inside, rfl⟩ := List.mem_map.1 listed
  have range := List.mem_zipIdx (List.mem_filter.1 inside).1
  show k < _
  omega

section Short

variable {m : Module} {T : List Signature}
  (short : ∀ s ∈ sectionsOf ((Encode.Fields.ofModule m).entries T) (Encode.functionNames (.ofModule m)),
    s.2.length < UInt32.size)
include short

/-- The indices of each kind take 32 bits. -/
theorem countOf_of_short (kind : ExportKind) : m.countOf kind < UInt32.size := by
  have all := countOf_sections (.ofModule m) T kind
  have four := length_ofSection_le short .imports (by decide)
    fun x inside => four_le_length_imported (mem_ofSection.1 inside).2
  have two (id : SectionId) (notStart : id ≠ .start)
      (own : id = .code ∨ id = .table ∨ id = .memory ∨ id = .global) :=
    length_ofSection_le short id notStart fun x inside =>
      two_le_length_defined ((mem_ofSection.1 inside).2.symm ▸ own)
  have code := two .code (by decide) (by decide)
  have tables := two .table (by decide) (by decide)
  have memories := two .memory (by decide) (by decide)
  have globals := two .global (by decide) (by decide)
  simp only [Encode.ofSection_entries, Encode.Fields.inSection, List.length_map] at *
  have imported := List.countP_le_length (l := (Encode.Fields.ofModule m).imports)
    (p := fun i => (Node.moduleImport i).defines == some kind)
  rw [countOf_entries] at all
  rw [all]
  cases kind <;> simp <;> omega

/-- A module whose sections are short enough can be written as its entries and read again. -/
theorem writable_entries (listed : (Encode.Fields.ofModule m).Listed T)
    (exports : ∀ e ∈ (Encode.Fields.ofModule m).exports, e.descr.id.position < m.countOf e.descr.kind)
    (single : (Encode.Fields.ofModule m).starts.length ≤ 1) :
    Writable ((Encode.Fields.ofModule m).entries T) (Encode.functionNames (.ofModule m)) where
  fine := by
    rw [Encode.typesOf_entries]
    exact fine_entries listed
  inRange x inside := by
    obtain ⟨id, -, inside⟩ := List.mem_flatMap.1 inside
    cases id with
    | exports =>
      obtain ⟨e, here, rfl⟩ := List.mem_map.1 inside
      show _ < countOf _ _
      rw [countOf_entries]
      exact exports e here
    | custom => cases inside
    | _ =>
      obtain ⟨_, -, rfl⟩ := List.mem_map.1 inside
      trivial
  single := by
    rw [Encode.ofSection_entries, Encode.Fields.inSection, List.length_map]
    exact single
  fits := fits_of_short short
  named name inside := by
    have index := mem_functionNames inside
    have funcs := importedFuncs_add m
    have count := countOf_of_short short .func
    exact ⟨by omega, isName_of_short short inside⟩
  namesFit := namesFit_of_short short

end Short

end WasmEngine.Binary
