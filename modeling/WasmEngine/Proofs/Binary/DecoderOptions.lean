import WasmEngine.Proofs.Binary.PassedSections

/-!
# What decoder options leave

With other options a module is decoded to the same module without what the options pass over
(`Module.without`), up to the numbers of the labels in the offsets of data segments.
-/

namespace WasmEngine

/-- A parameter or local without its name. -/
def Param.unnamed (p : Param) : Param := .anonymous p.valtype

/-- A signature without the names of its parameters. -/
def SignatureRef.unnamed : SignatureRef → SignatureRef
  | inline s => inline ⟨s.params.map .unnamed, s.results⟩
  | ref index => ref index

namespace Func

/-- A function with the name that is generated for the `k`th one, whose parameters and locals have none. -/
def unnamed (k : Nat) (f : Func) : Func :=
  { f with
    name := .synthesized ("func_" ++ toString k)
    signature := f.signature.unnamed
    locals := f.locals.map .unnamed }

/-- A function without its locals and instructions. -/
def bodiless (f : Func) : Func := { f with locals := [], body := [], metadata := none }

/-- The `k`th function without what options pass over. -/
def without (o : Binary.DecoderOptions) (k : Nat) (f : Func) : Func :=
  let f := if o.ignoreNameSection then f.unnamed k else f
  if o.ignoreCodeSection then f.bodiless else f

end Func

/-- Fields without what options pass over, after `k` functions. -/
def fieldsWithout (o : Binary.DecoderOptions) (k : Nat) : List Node → List Node
  | [] => []
  | node :: nodes =>
    match node.func? with
    | some f => (f.without o k).toNode :: fieldsWithout o (k + 1) nodes
    | none => if o.keeps node then node :: fieldsWithout o k nodes else fieldsWithout o k nodes

/-- A module without what options pass over. -/
def Module.without (o : Binary.DecoderOptions) (m : Module) : Module :=
  ⟨m.id, fieldsWithout o 0 m.fields, m.metadata.map (·.without o)⟩

/-- The same module, with the labels in the offsets of data segments moved. -/
structure Module.OffsetsMoved (shift : String → Int) (m m' : Module) : Prop where
  id : m'.id = m.id
  fields : Node.OffsetsMoved shift m.fields m'.fields
  metadata : m'.metadata = m.metadata

/-! ## Functions -/

/-- Parameters without names are those of their types. -/
theorem Param.map_unnamed (params : List Param) :
    params.map unnamed = (params.map Param.valtype).map anonymous := by
  rw [List.map_map]
  rfl

/-- A name of a parameter is lost with the others. -/
theorem Param.map_unnamed_modify (params : List Param) (i : Nat) (id : Option String) :
    (params.modify i ({ · with id := id })).map unnamed = params.map unnamed := by
  rw [map_unnamed, Binary.valtype_modify, map_unnamed]

namespace Func

open Binary.Decode

/-- A name for a local does not reach into the body. -/
theorem bodiless_nameSlot (f : Func) (name : LocalName) :
    (nameSlot f name).bodiless = nameSlot f.bodiless name := by
  obtain ⟨id, signature, locals, body, metadata⟩ := f
  cases signature with
  | inline s =>
    simp only [nameSlot, bodiless]
    split_ifs <;> simp
  | ref index => simp [nameSlot, bodiless]

/-- A name for a local is lost with the others. -/
theorem unnamed_nameSlot (k : Nat) (f : Func) (name : LocalName) :
    (nameSlot f name).unnamed k = f.unnamed k := by
  obtain ⟨id, signature, locals, body, metadata⟩ := f
  cases signature with
  | inline s =>
    simp only [nameSlot, unnamed]
    split_ifs <;> simp only [SignatureRef.unnamed, Param.map_unnamed_modify]
  | ref index => simp only [nameSlot, unnamed, Param.map_unnamed_modify]

/-- The names of a name section do not reach into a body. -/
theorem bodiless_applyNames (metadata : ModuleMetadata) (i : Nat) (f : Func) :
    (applyNames metadata i f).bodiless = applyNames metadata i f.bodiless := by
  have slots (names : List LocalName) (f : Func) :
      (names.foldl nameSlot f).bodiless = names.foldl nameSlot f.bodiless := by
    induction names generalizing f with
    | nil => rfl
    | cons name names ih => rw [List.foldl_cons, ih, bodiless_nameSlot, List.foldl_cons]
  unfold applyNames
  rw [slots]
  cases metadata.functionNames.find? (·.index == i) <;> rfl

/-- The names of a name section are lost with the others. -/
theorem unnamed_applyNames (metadata : ModuleMetadata) (i k : Nat) (f : Func) :
    (applyNames metadata i f).unnamed k = f.unnamed k := by
  have slots (names : List LocalName) (f : Func) : (names.foldl nameSlot f).unnamed k = f.unnamed k := by
    induction names generalizing f with
    | nil => rfl
    | cons name names ih => rw [List.foldl_cons, ih, unnamed_nameSlot]
  unfold applyNames
  rw [slots]
  cases metadata.functionNames.find? (·.index == i) <;> rfl

/-- Names that options leave are applied to what they leave of a function. -/
theorem without_applyNames (o : Binary.DecoderOptions) (metadata : ModuleMetadata) (i k : Nat) (f : Func) :
    (applyNames metadata i f).without o k = applyNames (metadata.without o) i (f.without o k) := by
  have named : (if o.ignoreNameSection then (applyNames metadata i f).unnamed k else applyNames metadata i f) =
      applyNames (metadata.without o) i (if o.ignoreNameSection then f.unnamed k else f) := by
    unfold ModuleMetadata.without
    split_ifs
    · rw [unnamed_applyNames]
      rfl
    · rfl
  simp only [without, named]
  by_cases ignored : o.ignoreCodeSection = true
  · simp only [if_pos ignored, bodiless_applyNames]
  · simp only [if_neg ignored]

end Func

namespace Binary

open Outcome Decode

variable {o : DecoderOptions} {nodes rest : List Node}

/-- The definition of a declared function where options may pass over its body. -/
def defineWithout (o : DecoderOptions) (metadata : ModuleMetadata) (f : DeclaredFunc × Nat) (c : CodeEntry) :
    Func :=
  let func : Func := ⟨f.1.id, .inline f.1.signature, c.locals.map .anonymous, c.body, some ⟨c.size⟩⟩
  applyNames metadata f.2 (if o.ignoreCodeSection then func.bodiless else func)

/-- Without the code section every function is defined with an empty body, if there were bodies enough. -/
theorem assemble_of_ignored {d : Decoder} (ignored : d.options.ignoreCodeSection = true) {i : Nat}
    {fs : List DeclaredFunc} {code cs : List CodeEntry} (enough : (defined i fs).length ≤ cs.length) :
    assemble d i fs code =
      .ok ((List.zipWith (defineWithout d.options d.metadata) (defined i fs) cs).map Func.toNode) := by
  induction fs generalizing i cs with
  | nil => rfl
  | cons f fs ih =>
    unfold assemble
    by_cases imported : f.isImported = true
    · rw [defined_cons_of_imported i fs imported] at enough ⊢
      rw [if_pos imported]
      exact ih enough
    · rw [defined_cons i fs imported] at enough ⊢
      rw [if_neg imported, if_pos ignored]
      cases cs with
      | nil => cases enough
      | cons c cs =>
        rw [ih (Nat.le_of_succ_le_succ enough), List.zipWith_cons_cons, List.map_cons, defineWithout,
          if_pos ignored]
        rfl

/-- Functions are put together with their bodies or without them, as the options say. -/
theorem assemble_eq_ok {d : Decoder} {i : Nat} {fs : List DeclaredFunc} {cs : List CodeEntry}
    (all : d.options.ignoreCodeSection = false → d.code = cs) (enough : (defined i fs).length ≤ cs.length) :
    assemble d i fs d.code =
      .ok ((List.zipWith (defineWithout d.options d.metadata) (defined i fs) cs).map Func.toNode) := by
  cases ignored : d.options.ignoreCodeSection with
  | true => exact assemble_of_ignored ignored enough
  | false =>
    have plain : defineWithout d.options d.metadata = define d.metadata := by
      funext f c
      rw [defineWithout, ignored]
      rfl
    rw [all ignored, plain]
    exact (assemble_eq_ok_iff ignored).2 ⟨enough, rfl⟩

/-- A function with a generated name has no names of its own. -/
theorem define_without (metadata : ModuleMetadata) {s : Signature} (anonymous : IsAnonymous s) (i k : Nat)
    (imported : Bool) (c : CodeEntry) :
    (define metadata (⟨.synthesized ("func_" ++ toString k), s, imported⟩, i) c).without o k =
      defineWithout o (metadata.without o) (⟨.synthesized ("func_" ++ toString k), s, imported⟩, i) c := by
  have params : s.params.map .unnamed = s.params := by
    rw [Param.map_unnamed, ← Signature.paramTypes, ← anonymous]
  have locals : (c.locals.map Param.anonymous).map .unnamed = c.locals.map Param.anonymous := by
    rw [List.map_map]
    rfl
  rw [define, Func.without_applyNames, defineWithout]
  simp only [Func.without, Func.unnamed, SignatureRef.unnamed, params, locals]
  split_ifs <;> rfl

/-- Each definition differs by just what the options leave out. -/
theorem definitions_without (metadata : ModuleMetadata) {ss : List Signature}
    (anonymous : ∀ s ∈ ss, IsAnonymous s) (i k : Nat) (cs : List CodeEntry) :
    ((List.zipWith (define metadata) ((declarations k ss).zipIdx i) cs).zipIdx k).map
      (fun f => f.1.without o f.2) =
      List.zipWith (defineWithout o (metadata.without o)) ((declarations k ss).zipIdx i) cs := by
  induction ss generalizing i k cs with
  | nil => rfl
  | cons s ss ih =>
    obtain ⟨here, there⟩ := List.forall_mem_cons.1 anonymous
    cases cs with
    | nil => rfl
    | cons c cs =>
      exact congrArg₂ List.cons (define_without metadata here i k false c) (ih there (i + 1) (k + 1) cs)

/-! ## Fields -/

/-- Fields that are no functions are kept or left out one by one. -/
theorem fieldsWithout_append (others : ∀ node ∈ nodes, node.func? = none) (k : Nat) :
    fieldsWithout o k (nodes ++ rest) = nodes.filter o.keeps ++ fieldsWithout o k rest := by
  induction nodes with
  | nil => rfl
  | cons node nodes ih =>
    obtain ⟨here, there⟩ := List.forall_mem_cons.1 others
    rw [List.cons_append, fieldsWithout, here, List.filter_cons]
    dsimp only
    split_ifs
    · rw [ih there, List.cons_append]
    · exact ih there

/-- Functions keep their numbers when fields before them are left out. -/
theorem fieldsWithout_funcs (fs : List Func) (k : Nat) : fieldsWithout o k (fs.map Func.toNode ++ rest) =
    ((fs.zipIdx k).map fun f => f.1.without o f.2).map Func.toNode ++ fieldsWithout o (k + fs.length) rest := by
  induction fs generalizing k with
  | nil => rfl
  | cons f fs ih =>
    rw [List.length_cons, ← Nat.succ_add_eq_add_succ]
    exact congrArg ((f.without o k).toNode :: ·) (ih (k + 1))

section Gathered

variable {total : Nat} {es : List Entry} {d d' : Decoder} {shift : String → Int}

/-- The entries of the other sections make no functions. -/
theorem func?_fieldsOf : ∀ node ∈ fieldsOf es, node.func? = none := by
  intro node inside
  obtain ⟨k, x, -, given⟩ := mem_numbered inside
  cases x with
  | func | exported | code => cases given
  | _ => cases given; rfl

theorem plain_exports : ∀ node ∈ es.filterMap Entry.export?, node.func? = none ∧ node.kind ≠ .data := by
  intro node inside
  obtain ⟨x, -, given⟩ := List.mem_filterMap.1 inside
  cases x with
  | exported => cases given; exact ⟨rfl, nofun⟩
  | _ => cases given

/-- The signatures of a decoded module have no names for their parameters. -/
theorem Gathered.anonymous_signatures (gathered : Gathered total es d) :
    ∀ s ∈ signaturesOf es, IsAnonymous s := by
  intro s inside
  obtain ⟨x, listed, given⟩ := List.mem_filterMap.1 inside
  obtain ⟨fine, -⟩ := gathered.spelled d.types (List.prefix_refl _) gathered.anonymous
  have known := fine x listed
  cases x with
  | func =>
    cases given
    exact gathered.anonymous s (List.mem_of_getElem? known.1.2)
  | _ => cases given

/-- The functions and exports that options leave. -/
def tailWithout (o : DecoderOptions) (metadata : ModuleMetadata) (es : List Entry) : List Node :=
  (List.zipWith (defineWithout o (metadata.without o))
    ((declarations 0 (signaturesOf es)).zipIdx (importedFuncs es)) (codeOf es)).map Func.toNode ++
    es.filterMap Entry.export?

theorem kind_tailWithout (metadata : ModuleMetadata) :
    ∀ node ∈ tailWithout o metadata es, node.kind ≠ .data := by
  refine List.forall_mem_append.2 ⟨fun node inside => ?_, fun node inside => (plain_exports node inside).2⟩
  obtain ⟨f, -, rfl⟩ := List.mem_map.1 inside
  exact nofun

/-- The fields that options leave of a module that was read. -/
theorem Gathered.fieldsWithout_moduleOf (gathered : Gathered total es d) :
    fieldsWithout o 0 (moduleOf d.metadata es).fields =
      (fieldsOf es).filter o.keeps ++ tailWithout o d.metadata es := by
  have exports (k : Nat) : fieldsWithout o k (es.filterMap Entry.export?) = es.filterMap Entry.export? := by
    have all : (es.filterMap Entry.export?).filter o.keeps = es.filterMap Entry.export? :=
      List.filter_eq_self.2 fun node inside => DecoderOptions.keeps_of_ne (plain_exports node inside).2
    conv_lhs => rw [← List.append_nil (es.filterMap Entry.export?)]
    rw [fieldsWithout_append fun node inside => (plain_exports node inside).1, all, fieldsWithout,
      List.append_nil]
  rw [moduleOf, List.append_assoc, fieldsWithout_append func?_fieldsOf, fieldsWithout_funcs, exports,
    definitions, definitions_without d.metadata gathered.anonymous_signatures, tailWithout]

/-- The program of a decoder that went along with one that read a whole module. -/
theorem Gathered.finish_abridged (gathered : Gathered total es d) (abridges : Abridges o shift d d')
    (enough : (signaturesOf es).length ≤ (codeOf es).length) : finish d' =
      .ok ⟨[.module none (d'.fields ++ tailWithout o d.metadata es) (some (d.metadata.without o))]⟩ := by
  have holds := gathered.holds
  have functions : defined 0 d'.functions = (declarations 0 (signaturesOf es)).zipIdx (importedFuncs es) := by
    rw [abridges.functions, holds.functions, defined_functions gathered.grouped]
  have code (all : d'.options.ignoreCodeSection = false) : d'.code = codeOf es :=
    (abridges.code (abridges.options ▸ all)).trans holds.code
  have length : (defined 0 d'.functions).length ≤ (codeOf es).length := by
    rwa [functions, List.length_zipIdx, length_declarations]
  rw [finish, assemble_eq_ok code length, functions, abridges.options, abridges.metadata, abridges.exports,
    holds.exports, tailWithout, ← List.append_assoc]
  rfl

/-- Such a decoder has other numbers of labels at most in the offsets of data segments. -/
theorem Gathered.offsetsMoved (gathered : Gathered total es d) (abridges : Abridges o shift d d') :
    Node.OffsetsMoved shift (fieldsWithout o 0 (moduleOf d.metadata es).fields)
      (d'.fields ++ tailWithout o d.metadata es) := by
  have same : d.fields = fieldsOf es := gathered.holds.fields
  rw [gathered.fieldsWithout_moduleOf, ← same]
  exact List.rel_append abridges.fields (Node.OffsetsMoved.of_forall (kind_tailWithout _))

/-- It has the same numbers if it read the bodies: when it passed over data segments, no offset is left. -/
theorem Gathered.fields_eq (gathered : Gathered total es d) (abridges : Abridges o shift d d')
    (settled : Settled o shift d.nextSection) (all : o.ignoreCodeSection = false) :
    d'.fields ++ tailWithout o d.metadata es = fieldsWithout o 0 (moduleOf d.metadata es).fields := by
  have moved := gathered.offsetsMoved abridges
  obtain rfl | ⟨-, ignored | ignored⟩ := settled
  · exact moved.eq
  · cases all.symm.trans ignored
  · rw [gathered.fieldsWithout_moduleOf] at moved ⊢
    refine moved.eq_of_forall (List.forall_mem_append.2 ⟨fun node inside => ?_, kind_tailWithout _⟩)
    exact DecoderOptions.ne_data_of_keeps ignored (List.mem_filter.1 inside).2

end Gathered

/-! ## Modules -/

/-- At the start nothing is left out yet. -/
theorem Abridges.start (o : DecoderOptions) (bytes : List UInt8) :
    Abridges o unmoved (.start .default bytes) (.start o bytes) where
  options := rfl
  reader := rfl
  names _ := rfl
  types := rfl
  functions := rfl
  tables := rfl
  memories := rfl
  globals := rfl
  code _ := rfl
  exports := rfl
  fields := .nil
  metadata := by
    unfold ModuleMetadata.without
    split_ifs <;> rfl
  nextSection := rfl

/-- What decodes when nothing is passed over decodes with other options too, to a module with what they leave. -/
theorem Gathered.decode_abridged {bytes : List UInt8} {total : Nat} {es : List Entry} {d₁ d : Decoder}
    (begins : header (.start .default bytes) = .ok () d₁) (reads : readSections (d₁.reader.remaining + 1) d₁ = .ok () d)
    (gathered : Gathered total es d) (enough : (signaturesOf es).length ≤ (codeOf es).length) (o : DecoderOptions) :
    ∃ shift d', Abridges o shift d d' ∧ Settled o shift d.nextSection ∧ decode o bytes =
      .ok ⟨[.module none (d'.fields ++ tailWithout o d.metadata es) (some (d.metadata.without o))]⟩ := by
  obtain ⟨_, d₁', begins', -, here⟩ := inStep_header.exists_ok (Abridges.start o bytes) begins
  obtain ⟨shift, d', reads', abridges, settled⟩ := here.sections (gathered_of_header begins) (.inl rfl) reads
  rw [← here.reader] at reads'
  exact ⟨shift, d', abridges, settled,
    decode_eq_ok_iff.2 ⟨d₁', d', begins', reads', gathered.finish_abridged abridges enough⟩⟩

/-- **Decoder options only leave things out.**  What decodes when nothing is passed over decodes with any
other options too, to what they leave of the same module.  Only the labels in the offsets of data segments
may have other numbers, and these only where bodies are passed over. -/
theorem decode_without {bytes : List UInt8} {p : Program} (decodes : decode .default bytes = .ok p)
    (o : DecoderOptions) : ∃ (m m' : Module) (shift : String → Int), p = ⟨[m.toNode]⟩ ∧
      decode o bytes = .ok ⟨[m'.toNode]⟩ ∧ (m.without o).OffsetsMoved shift m' ∧
      (o.ignoreCodeSection = false → m' = m.without o) := by
  obtain ⟨d₁, d, es, begins, reads, gathered, enough, rfl⟩ := gathered_of_decode decodes
  obtain ⟨shift, d', abridges, settled, leaves⟩ := gathered.decode_abridged begins reads enough o
  refine ⟨_, ⟨none, _, some (d.metadata.without o)⟩, shift, rfl, leaves,
    ⟨rfl, gathered.offsetsMoved abridges, rfl⟩, fun all => ?_⟩
  rw [gathered.fields_eq abridges settled all]
  rfl

/-- A module with a named function and a data segment, each with a block, so that the label of the second
block has another number when the first is passed over. -/
def blockOffset : List UInt8 :=
  [0x00, 0x61, 0x73, 0x6d, 0x01, 0x00, 0x00, 0x00,
    0x01, 0x04, 0x01, 0x60, 0x00, 0x00,
    0x03, 0x02, 0x01, 0x00,
    0x05, 0x03, 0x01, 0x00, 0x01,
    0x0a, 0x07, 0x01, 0x05, 0x00, 0x02, 0x40, 0x0b, 0x0b,
    0x0b, 0x0a, 0x01, 0x00, 0x02, 0x7f, 0x41, 0x00, 0x0b, 0x0b, 0x01, 0x61,
    0x00, 0x0b, 0x04, 0x6e, 0x61, 0x6d, 0x65, 0x01, 0x04, 0x01, 0x00, 0x01, 0x66]

theorem decode_without_blockOffset : ∃ p, decode .default blockOffset = .ok p ∧
    ∃ (m m' : Module) (shift : String → Int), p = ⟨[m.toNode]⟩ ∧
      decode ⟨false, true, false, true⟩ blockOffset = .ok ⟨[m'.toNode]⟩ ∧
      (m.without ⟨false, true, false, true⟩).OffsetsMoved shift m' ∧
      (true = false → m' = m.without ⟨false, true, false, true⟩) := by
  have succeeds : (decode .default blockOffset).isOk = true := by decide +kernel
  cases decodes : decode .default blockOffset with
  | ok p => exact ⟨p, rfl, decode_without decodes ⟨false, true, false, true⟩⟩
  | error e =>
    rw [decodes] at succeeds
    cases succeeds

end Binary

end WasmEngine
