import Mathlib.Data.List.Flatten
import Mathlib.Data.List.Nodup
import Mathlib.Data.List.Perm.Subperm
import WasmEngine.Proofs.Binary.Canonical
import WasmEngine.Proofs.Binary.ModuleSpelling

/-!
# Modules that were decoded

A module that was decoded is encoded, and what is written is decoded to the same module up to the
numbers of generated labels, sizes, and the names that are not written (`decode_encode_of_decode`).
-/

/-! ## Names of functions

The names that a decoded module is written with are those that its functions got: the first one for
each index, unless it is empty (`functionNames_moduleOf`).  They take no more bytes than the names that
were read, and give the functions the same names again.
-/

namespace WasmEngine.Binary

open Decode

variable {metadata metadata' : ModuleMetadata}

/-- The name that is written for the function of an index. -/
def writtenName (metadata : ModuleMetadata) (index : Nat) : Option FunctionName :=
  (metadata.functionNames.find? (·.index == index)).filter fun name => !name.value.isEmpty

/-- The names that are written for some functions from an index on. -/
def writtenNames (metadata : ModuleMetadata) (index count : Nat) : List FunctionName :=
  (List.range' index count).filterMap (writtenName metadata)

/-- A name that is written is one that was read, for this function, and not empty. -/
theorem writtenName_eq_some {index : Nat} {name : FunctionName}
    (given : writtenName metadata index = some name) :
    name ∈ metadata.functionNames ∧ name.index = index ∧ name.value.isEmpty = false := by
  obtain ⟨found, filled⟩ := Option.filter_eq_some_iff.1 given
  exact ⟨List.mem_of_find?_eq_some found, by simpa using List.find?_some found, by simpa using filled⟩

/-- The first name of an index, which may be empty. -/
theorem find?_of_writtenName (index : Nat) :
    metadata.functionNames.find? (·.index == index) = writtenName metadata index ∨
      ∃ name, metadata.functionNames.find? (·.index == index) = some name ∧
        name.value.isEmpty = true ∧ writtenName metadata index = none := by
  unfold writtenName
  cases metadata.functionNames.find? (·.index == index) with
  | none => exact .inl rfl
  | some name =>
    cases empty : name.value.isEmpty with
    | true => exact .inr ⟨name, rfl, empty, by rw [Option.filter_some, empty]; rfl⟩
    | false => exact .inl (by rw [Option.filter_some, empty]; rfl)

/-- No name is written twice, since each is for another function. -/
theorem nodup_writtenNames (index count : Nat) : (writtenNames metadata index count).Nodup := by
  refine List.Nodup.filterMap (fun i j name left right => ?_) List.nodup_range'
  obtain ⟨-, rfl, -⟩ := writtenName_eq_some left
  exact (writtenName_eq_some right).2.1

/-- Only names that were read are written. -/
theorem mem_writtenNames {index count : Nat} {name : FunctionName}
    (inside : name ∈ writtenNames metadata index count) : name ∈ metadata.functionNames := by
  obtain ⟨i, -, given⟩ := List.mem_filterMap.1 inside
  exact (writtenName_eq_some given).1

/-- Fewer names take less space. -/
theorem namesSize_le_of_subperm {fs gs : List FunctionName} (subperm : fs.Subperm gs) :
    namesSize fs ≤ namesSize gs := by
  obtain ⟨hs, perm, sublist⟩ := subperm
  rw [namesSize, ← (perm.flatMap_right functionNameBytes).length_eq]
  exact (sublist.flatMap functionNameBytes).length_le

/-- The names that are written take no more space than those that were read. -/
theorem namesSize_writtenNames (metadata : ModuleMetadata) (index count : Nat) :
    namesSize (writtenNames metadata index count) ≤ namesSize metadata.functionNames :=
  namesSize_le_of_subperm ((nodup_writtenNames index count).subperm fun _ => mem_writtenNames)

/-- The names that were written are found again. -/
theorem find?_writtenNames (index count i : Nat) :
    (writtenNames metadata index count).find? (·.index == i) =
      if index ≤ i ∧ i < index + count then writtenName metadata i else none := by
  induction count generalizing index with
  | zero => rw [if_neg (by omega)]; rfl
  | succ count ih =>
    have names : writtenNames metadata index (count + 1) =
        (writtenName metadata index).toList ++ writtenNames metadata (index + 1) count := by
      rw [writtenNames, List.range'_succ, List.filterMap_cons]
      cases writtenName metadata index <;> rfl
    rw [names, List.find?_append, ih]
    by_cases same : index = i
    · subst same
      rw [if_neg (by omega), Option.or_none, if_pos (by omega)]
      cases given : writtenName metadata index with
      | none => rfl
      | some name => simp [(writtenName_eq_some given).2.1]
    · have first : (writtenName metadata index).toList.find? (·.index == i) = none := by
        refine List.find?_eq_none.2 fun name inside other => ?_
        have given := (writtenName_eq_some (Option.mem_toList.1 inside)).2.1
        exact same (given.symm.trans (by simpa using other))
      rw [first, Option.none_or]
      exact if_congr (by omega) rfl rfl

/-- Names that were written are written again. -/
theorem writtenName_of_written {index count i : Nat}
    (names : metadata'.functionNames = writtenNames metadata index count)
    (within : index ≤ i ∧ i < index + count) :
    writtenName metadata' i = writtenName metadata i := by
  rw [writtenName, names, find?_writtenNames, if_pos within]
  cases given : writtenName metadata i with
  | none => rfl
  | some name =>
    rw [Option.filter_some, (writtenName_eq_some given).2.2]
    rfl

/-- Names that were written once are written again. -/
theorem writtenNames_of_written {index count : Nat}
    (names : metadata'.functionNames = writtenNames metadata index count) :
    writtenNames metadata' index count = writtenNames metadata index count := by
  refine List.filterMap_congr fun i inside => writtenName_of_written names ?_
  have := List.mem_range'_1.1 inside
  omega

/-- A function keeps its name unless that was empty. -/
theorem nameOf?_of_written {index count i : Nat}
    (names : metadata'.functionNames = writtenNames metadata index count)
    (within : index ≤ i ∧ i < index + count) :
    nameOf? metadata' i = nameOf? metadata i ∨
      nameOf? metadata i = some (.ofString "") ∧ nameOf? metadata' i = none := by
  have found : nameOf? metadata' i = (writtenName metadata i).map (.ofString ·.value) := by
    rw [nameOf?, names, find?_writtenNames, if_pos within]
  rw [found, nameOf?]
  obtain same | ⟨name, here, empty, unwritten⟩ := find?_of_writtenName i
  · exact .inl (by rw [same])
  · refine .inr ⟨?_, by rw [unwritten]; rfl⟩
    rw [here, Option.map_some, String.isEmpty_iff.1 empty]

/-! ## The names of a module -/

/-- A function that was declared with a generated name is written with the name that it got. -/
theorem name_define (metadata : ModuleMetadata) (f : DeclaredFunc × Nat) (c : CodeEntry) (generated : f.1.id.isSynthesized = true) :
    (if !(define metadata f c).name.isSynthesized
      then some (⟨(define metadata f c).name.value, f.2⟩ : FunctionName) else none) =
        writtenName metadata f.2 := by
  rw [(shaped_define metadata f c).2, nameOf?]
  obtain same | ⟨name, here, empty, unwritten⟩ := find?_of_writtenName f.2
  · rw [same]
    cases given : writtenName metadata f.2 with
    | none => simp [generated]
    | some name =>
      obtain ⟨-, index, filled⟩ := writtenName_eq_some given
      simp [Identifier.isSynthesized, Identifier.ofString, filled, ← index]
  · rw [here, unwritten]
    simp [Identifier.isSynthesized, Identifier.ofString, empty]

/-- The names that definitions have are those that are written. -/
theorem names_defined {fs : List DeclaredFunc} {cs : List CodeEntry}
    (generated : ∀ f ∈ fs, f.id.isSynthesized = true) (enough : fs.length ≤ cs.length) (index : Nat) :
    (((List.zipWith (define metadata) (fs.zipIdx index) cs).zipIdx index).filter
      fun (f, _) => !f.name.isSynthesized).map (fun (f, i) => (⟨f.name.value, i⟩ : FunctionName)) =
        writtenNames metadata index fs.length := by
  induction fs generalizing cs index with
  | nil => rfl
  | cons f fs ih =>
    obtain ⟨first, others⟩ := List.forall_mem_cons.1 generated
    cases cs with
    | nil => cases enough
    | cons c cs =>
      have rest := ih others (Nat.le_of_succ_le_succ enough) (index + 1)
      have here := name_define metadata (f, index) c first
      rw [List.zipIdx_cons, List.zipWith_cons_cons, List.zipIdx_cons, writtenNames, List.length_cons,
        List.range'_succ, List.filterMap_cons, ← here, List.filter_cons]
      split_ifs
      · rw [List.map_cons, rest]
        rfl
      · rw [rest]
        rfl

/-- The names of the functions of a decoded module are those that its name section gives them. -/
theorem functionNames_moduleOf (metadata : ModuleMetadata) (es : List Entry)
    (enough : (signaturesOf es).length ≤ (codeOf es).length) :
    Encode.functionNames (.ofModule (moduleOf metadata es)) =
      writtenNames metadata (importedFuncs es) (signaturesOf es).length := by
  have funcs : (Encode.Fields.ofModule (moduleOf metadata es)).funcs = definitions metadata es :=
    funcs_moduleOf metadata es
  rw [Encode.functionNames, importedFuncs_moduleOf, funcs, ← length_declarations 0]
  refine names_defined (fun f inside => ?_) (by rwa [length_declarations]) _
  obtain ⟨_, -, rfl⟩ := List.mem_map.1 inside
  rfl

end WasmEngine.Binary

namespace WasmEngine.Binary

open Outcome Decode Node

/-! ## Writing again -/

section Writing

variable {es : List Entry} {T : List Signature}

/-- Some of the entries that fit a section fit it as well. -/
theorem Fits.take {id : SectionId} {xs : List Entry} (fits : Fits T id xs) (n : Nat) :
    Fits T id (xs.take n) := by
  obtain ⟨few, short⟩ := fits
  have length : (xs.take n).length ≤ xs.length := List.length_take_le' n xs
  have bytes : ((xs.take n).flatMap (Entry.bytes T)).length ≤ (xs.flatMap (Entry.bytes T)).length :=
    ((List.take_sublist n xs).flatMap (Entry.bytes T)).length_le
  have few' := Nat.lt_of_le_of_lt length few
  have counts : (Encode.u32 (xs.take n).length).length ≤ (Encode.u32 xs.length).length := by
    rw [u32_eq few, u32_eq few']
    exact Leb128.length_encodeUnsigned_mono length
  refine ⟨few', Nat.lt_of_le_of_lt ?_ short⟩
  unfold sectionContents
  split_ifs
  · exact bytes
  · rw [List.length_append, List.length_append]
    exact Nat.add_le_add counts bytes

/-- Names that take little space make a short section. -/
theorem length_nameContents {fs : List FunctionName} (small : namesSize fs + 16 < UInt32.size) :
    (nameContents fs).length < UInt32.size := by
  have entries := length_le_namesSize fs
  have header (n : Nat) (fits : n < UInt32.size) : (Encode.u32 n).length ≤ 5 := by
    rw [u32_eq fits]
    exact Leb128.length_encodeUnsigned_le (Nat.lt_trans fits (by decide)) (by decide)
  have count := header fs.length (by omega)
  have bytes : (namesBytes fs).length ≤ namesSize fs + 5 := by
    rw [namesBytes, Encode.vector, List.length_append, Nat.add_comm]
    exact Nat.add_le_add_left count _
  have fits : (namesBytes fs).length < UInt32.size := by omega
  have size := header _ fits
  rw [nameContents, Write.byteVector, Nat.mod_eq_of_lt fits, ← u32_eq fits]
  simp only [List.length_append, List.length_cons, length_name_name]
  omega

/-- The entries of a decoded module can be written, with the names that its functions got. -/
theorem Gathered.writable {total : Nat} {d : Decoder} (gathered : Gathered total es d)
    (small : total < UInt32.size) (index count : Nat) :
    Writable (trimmed es) (writtenNames d.metadata index count) where
  fine x inside := by
    obtain ⟨fine, -⟩ := gathered.spelled d.types (List.prefix_refl _) gathered.anonymous
    rw [typesOf_trimmed gathered.grouped, typesOf, ← gathered.holds.types]
    exact fine x (mem_trimmed inside)
  inRange x inside :=
    (gathered.inRange x (mem_trimmed inside)).congr (countOf_trimmed gathered.grouped)
  single := by
    rw [ofSection_trimmed]
    exact gathered.single
  fits id := by
    obtain ⟨-, fits⟩ := gathered.spelled d.types (List.prefix_refl _) gathered.anonymous
    rw [typesOf_trimmed gathered.grouped, typesOf, ← gathered.holds.types, ofSection_trimmed, kept]
    split_ifs with isCode
    · exact isCode ▸ (fits .code).take _
    · exact fits id
  named f inside := gathered.named f (mem_writtenNames inside)
  namesFit := by
    refine length_nameContents ?_
    have room := gathered.room
    rw [Reader.size] at room
    obtain none | few := gathered.names
    · have size := namesSize_writtenNames d.metadata index count
      rw [none] at size
      rw [Nat.le_zero.1 size]
      decide
    · have size := namesSize_writtenNames d.metadata index count
      omega

/-- The labels of a decoded module are generated. -/
theorem labelled_moduleOf (metadata : ModuleMetadata) (labelled : ∀ x ∈ es, x.Labelled) :
    ∀ node ∈ (moduleOf metadata es).fields, node.Labelled := by
  have fields : ∀ node ∈ fieldsOf es, node.Labelled := fun node inside => by
    obtain ⟨k, x, listed, given⟩ := mem_numbered inside
    have holds := labelled x listed
    cases x with
    | func | exported | code => cases given
    | global | elem | data => cases given; exact holds
    | _ => cases given; trivial
  have funcs : ∀ node ∈ (definitions metadata es).map Func.toNode, node.Labelled := by
    intro node inside
    obtain ⟨f, listed, rfl⟩ := List.mem_map.1 inside
    obtain ⟨c, bodies, shaped⟩ : ∃ c ∈ codeOf es, f.body = c.body := by
      rw [definitions, ← List.map_uncurry_zip_eq_zipWith] at listed
      obtain ⟨⟨g, c⟩, pair, rfl⟩ := List.mem_map.1 listed
      exact ⟨c, (List.of_mem_zip pair).2, (shaped_define metadata g c).1.body⟩
    obtain ⟨x, listed, given⟩ := List.mem_filterMap.1 bodies
    have holds := labelled x listed
    cases x with
    | code => cases given; exact Eq.mpr (congrArg LabelledIn shaped) holds
    | _ => cases given
  have exports : ∀ node ∈ es.filterMap Entry.export?, node.Labelled := fun node inside => by
    obtain ⟨x, listed, given⟩ := List.mem_filterMap.1 inside
    cases x with
    | exported => cases given; trivial
    | _ => cases given
  exact List.forall_mem_append.2 ⟨List.forall_mem_append.2 ⟨fields, funcs⟩, exports⟩

end Writing

/-! ## What is decoded again -/

/-- The function at a node has the same type, locals and instructions as another one up to the names of
parameters, locals and labels, and its name unless that is empty. -/
structure SameFunc (f f' : Func) : Prop where
  name : f'.name = f.name ∨ f.name = .ofString "" ∧ f'.name.isSynthesized = true
  type : ∃ s s', f.signature = .inline s ∧ f'.signature = .inline s' ∧ s'.funcType = s.funcType
  locals : f'.locals.map Param.valtype = f.locals.map Param.valtype
  body : unlabelledIn f'.body = unlabelledIn f.body

/-- A field of a module that is decoded again. -/
inductive SameField : Node → Node → Prop
  | func {f f' : Func} (same : SameFunc f f') : SameField f.toNode f'.toNode
  | other {node node' : Node} (same : node'.unlabelled = node.unlabelled) : SameField node node'

/-- A module has the fields of another one in their order, up to the numbers of generated labels. -/
structure SameModule (m m' : Module) : Prop where
  id : m'.id = m.id
  fields : List.Forall₂ SameField m.fields m'.fields
  labelled : ∀ node ∈ m.fields ++ m'.fields, node.Labelled

section Again

variable {metadata metadata' : ModuleMetadata} {es ys : List Entry}

/-- Without labels an entry makes the same field without labels. -/
theorem Entry.field_plain (k : Nat) (x : Entry) :
    x.plain.field k k = (x.field k k).map Node.unlabelled := by
  cases x <;> rfl

/-- Without labels entries make the same fields without labels. -/
theorem unlabelled_fieldsOf (es : List Entry) :
    (fieldsOf es).map Node.unlabelled = fieldsOf (es.map Entry.plain) := by
  have all (k : Nat) : (numbered (Entry.hasKind .table) (fun k => Entry.field k k) k es).map
      Node.unlabelled = numbered (Entry.hasKind .table) (fun k => Entry.field k k) k
        (es.map Entry.plain) := by
    induction es generalizing k with
    | nil => rfl
    | cons x es ih =>
      have counts : x.plain.hasKind .table = x.hasKind .table := by
        rw [Entry.hasKind, Entry.kind?_plain, Entry.hasKind]
      rw [List.map_cons, numbered, numbered, counts, List.map_append, ih, Entry.field_plain]
      congr 1
      cases x.field k k <;> rfl
  exact all 0

/-- Fields that are the same without labels are so one by one. -/
theorem sameFields_of_map {nodes nodes' : List Node}
    (same : nodes'.map Node.unlabelled = nodes.map Node.unlabelled) :
    List.Forall₂ SameField nodes nodes' := by
  rw [← List.forall₂_eq_eq_eq, List.forall₂_map_left_iff, List.forall₂_map_right_iff] at same
  exact same.flip.imp fun _ _ => .other

/-- Entries that are the same without labels export the same. -/
theorem exports_congr (same : ys.map Entry.plain = es.map Entry.plain) :
    ys.filterMap Entry.export? = es.filterMap Entry.export? := by
  have plain (xs : List Entry) :
      xs.filterMap Entry.export? = (xs.map Entry.plain).filterMap Entry.export? := by
    rw [List.filterMap_map]
    refine congrArg (List.filterMap · xs) (funext fun x => ?_)
    cases x <;> rfl
  rw [plain, same, ← plain]

/-- The locals and instructions of a function without labels. -/
def SameCode (c c' : CodeEntry) : Prop :=
  c'.locals = c.locals ∧ unlabelledIn c'.body = unlabelledIn c.body

/-- Bodies that are the same without labels have the same locals and code. -/
theorem sameCode_of_plain (same : ys.map Entry.plain = es.map Entry.plain) :
    List.Forall₂ SameCode (codeOf es) (codeOf ys) := by
  have codes := forall₂_of_plain (ofSection_congr same .code)
  rw [ofSection_code, ofSection_code, List.forall₂_map_left_iff, List.forall₂_map_right_iff] at codes
  refine codes.flip.imp fun c c' plain => ?_
  simp only [Entry.plain, Entry.code.injEq, CodeEntry.mk.injEq] at plain
  exact ⟨plain.2.1, plain.1⟩

/-- Functions get the same bodies and, where these were written, the same names. -/
theorem sameFuncs_defined {index count : Nat}
    (names : metadata'.functionNames = writtenNames metadata index count)
    {fs : List (DeclaredFunc × Nat)}
    (within : ∀ f ∈ fs, f.1.id.isSynthesized = true ∧ index ≤ f.2 ∧ f.2 < index + count)
    {cs cs' : List CodeEntry} (same : List.Forall₂ SameCode cs cs') :
    List.Forall₂ SameField ((List.zipWith (define metadata) fs cs).map Func.toNode)
      ((List.zipWith (define metadata') fs cs').map Func.toNode) := by
  induction same generalizing fs with
  | nil => cases fs <;> exact .nil
  | @cons c c' cs cs' first _ ih =>
    cases fs with
    | nil => exact .nil
    | cons f fs =>
      obtain ⟨⟨generated, range⟩, others⟩ := List.forall_mem_cons.1 within
      obtain ⟨⟨⟨s, inline, type⟩, locals, body⟩, name⟩ := shaped_define metadata f c
      obtain ⟨⟨⟨s', inline', type'⟩, locals', body'⟩, name'⟩ := shaped_define metadata' f c'
      refine .cons (.func ⟨?_, ⟨s, s', inline, inline', type'.trans type.symm⟩, ?_, ?_⟩) (ih others)
      · rw [name, name']
        obtain found | ⟨empty, unnamed⟩ := nameOf?_of_written names range
        · exact .inl (by rw [found])
        · exact .inr (by rw [empty, unnamed]; exact ⟨rfl, generated⟩)
      · rw [locals, locals', first.1]
      · rw [body, body', first.2]

/-- The module of entries that were read again. -/
theorem sameFields_moduleOf (same : ys.map Entry.plain = es.map Entry.plain)
    (names : metadata'.functionNames =
      writtenNames metadata (importedFuncs es) (signaturesOf es).length) :
    List.Forall₂ SameField (moduleOf metadata es).fields (moduleOf metadata' ys).fields := by
  have fields : List.Forall₂ SameField (fieldsOf es) (fieldsOf ys) :=
    sameFields_of_map (by rw [unlabelled_fieldsOf, same, unlabelled_fieldsOf])
  have funcs : List.Forall₂ SameField ((definitions metadata es).map Func.toNode)
      ((definitions metadata' ys).map Func.toNode) := by
    rw [definitions, definitions, signaturesOf_congr same, importedFuncs_congr same]
    refine sameFuncs_defined names (fun f inside => ⟨?_, ?_⟩) (sameCode_of_plain same)
    · obtain ⟨_, -, declared⟩ := List.mem_map.1 (List.fst_mem_of_mem_zipIdx inside)
      rw [← declared]
      rfl
    · have range := List.mem_zipIdx inside
      rw [length_declarations] at range
      omega
  have exports : List.Forall₂ SameField (es.filterMap Entry.export?) (ys.filterMap Entry.export?) :=
    sameFields_of_map (by rw [exports_congr same])
  exact List.rel_append (List.rel_append fields funcs) exports

end Again

/-! ## Round trips -/

/-- A module that was decoded is encoded, and what is written is decoded to the same module, which is
written in the same way. -/
theorem decode_encode_of_decode {bytes : List UInt8} {p : Program}
    (small : bytes.length < UInt32.size) (decodes : decode .default bytes = .ok p) :
    ∃ m bytes' m', p = ⟨[m.toNode]⟩ ∧ encode m = .ok bytes' ∧
      decode .default bytes' = .ok ⟨[m'.toNode]⟩ ∧ SameModule m m' ∧ encode m' = .ok bytes' := by
  obtain ⟨-, d, es, -, -, gathered, enough, rfl⟩ := gathered_of_decode decodes
  have grouped := gathered.grouped
  have count : (codeOf (trimmed es)).length = (signaturesOf (trimmed es)).length := by
    rw [codeOf_trimmed, signaturesOf_trimmed grouped, List.length_take, Nat.min_eq_left enough]
  have writable := gathered.writable small (importedFuncs (trimmed es))
    (signaturesOf (trimmed es)).length
  have names := functionNames_moduleOf d.metadata (trimmed es) (Nat.le_of_eq count.symm)
  have written := encode_moduleOf d.metadata writable.fine count writable.single
  obtain ⟨ys, next, d', same, stands, decodes'⟩ :=
    decode_moduleBytes writable grouped_trimmed DecoderOptions.complete_default
  have count' : (codeOf ys).length = (signaturesOf ys).length := by
    rw [← (sameCode_of_plain same).length_eq, signaturesOf_congr same, count]
  have program := (finish_eq_ok_iff (stands.options ▸ rfl) stands.holds
    (grouped_congr same grouped_trimmed)).2 ⟨Nat.le_of_eq count'.symm, rfl⟩
  have single : (ofSection .start ys).length ≤ 1 := by
    rw [← List.length_map (f := Entry.plain), ofSection_congr same, List.length_map]
    exact writable.single
  have written' := encode_moduleOf d'.metadata (fine_congr same writable.fine) count' single
  rw [names, moduleOf_trimmed d.metadata grouped] at written
  rw [functionNames_moduleOf d'.metadata ys (Nat.le_of_eq count'.symm), importedFuncs_congr same,
    signaturesOf_congr same, writtenNames_of_written stands.names, moduleBytes_congr same] at written'
  rw [program] at decodes'
  refine ⟨_, _, _, rfl, written, decodes', ⟨rfl, ?_, ?_⟩, written'⟩
  · rw [← moduleOf_trimmed d.metadata grouped]
    exact sameFields_moduleOf same stands.names
  · -- the labels of the second module are those that its decoder made
    obtain ⟨-, e, zs, -, -, gathered', -, again⟩ := gathered_of_decode decodes'
    have modules : moduleOf d'.metadata ys = moduleOf e.metadata zs := by
      simpa [Module.toNode, moduleOf] using again
    rw [modules]
    exact List.forall_mem_append.2 ⟨labelled_moduleOf _ gathered.labelled,
      labelled_moduleOf _ gathered'.labelled⟩

/-- A module of one named function whose body is an empty block; the size of its type section takes two
bytes. -/
def emptyBlock : List UInt8 :=
  [0x00, 0x61, 0x73, 0x6d, 0x01, 0x00, 0x00, 0x00,
    0x01, 0x84, 0x00, 0x01, 0x60, 0x00, 0x00,
    0x03, 0x02, 0x01, 0x00,
    0x0a, 0x07, 0x01, 0x05, 0x00, 0x02, 0x40, 0x0b, 0x0b,
    0x00, 0x0b, 0x04, 0x6e, 0x61, 0x6d, 0x65, 0x01, 0x04, 0x01, 0x00, 0x01, 0x66]

theorem decode_encode_emptyBlock : emptyBlock.length < UInt32.size ∧
    ∃ p, decode .default emptyBlock = .ok p ∧ ∃ m bytes' m', p = ⟨[m.toNode]⟩ ∧
      encode m = .ok bytes' ∧ decode .default bytes' = .ok ⟨[m'.toNode]⟩ ∧ SameModule m m' ∧
      encode m' = .ok bytes' := by
  have small : emptyBlock.length < UInt32.size := by decide
  have succeeds : (decode .default emptyBlock).isOk = true := by decide +kernel
  cases decodes : decode .default emptyBlock with
  | ok p => exact ⟨small, p, rfl, decode_encode_of_decode small decodes⟩
  | error e =>
    rw [decodes] at succeeds
    cases succeeds

end WasmEngine.Binary
