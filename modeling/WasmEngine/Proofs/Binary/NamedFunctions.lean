import Mathlib.Data.List.Induction
import WasmEngine.Proofs.Binary.DecoderOptions
import WasmEngine.Proofs.Binary.NameSections

/-!
# Functions with names of name sections

The names of a name section are put into the functions of a module when all its sections have been read.  A function
gets the first name for its index, and each of its parameters and locals the last name for its slot
(`Func.named`).  All else is as in the module that is read when name sections are passed over.
-/

namespace WasmEngine

/-- A parameter or local with another name, if one is given. -/
def Param.named (name? : Option String) (p : Param) : Param :=
  match name? with
  | some name => { p with id := some name }
  | none => p

/-- Parameters or locals with names by their position. -/
def namedSlots (name? : Nat → Option String) (ps : List Param) : List Param :=
  ps.mapIdx fun slot => Param.named (name? slot)

/-- The parameters of a signature that is written out. -/
def SignatureRef.params : SignatureRef → List Param
  | inline s => s.params
  | ref _ => []

/-- A signature whose parameters get names by their position. -/
def SignatureRef.named (name? : Nat → Option String) : SignatureRef → SignatureRef
  | inline s => inline ⟨namedSlots name? s.params, s.results⟩
  | ref index => ref index

/-- The last name for a slot. -/
def lastName? (names : List LocalName) (slot : Nat) : Option String :=
  (names.filter (·.localIndex == slot)).getLast?.map (·.value)

/-- A function whose parameters and locals get names, the slots of the locals coming after those of the
parameters. -/
def Func.slotsNamed (names : List LocalName) (f : Func) : Func :=
  { f with
    signature := f.signature.named (lastName? names)
    locals := namedSlots (fun slot => lastName? names (f.signature.params.length + slot)) f.locals }

/-- The function of an index with the names that are given for this index. -/
def Func.named (functions : List FunctionName) (locals : List LocalName) (index : Nat) (f : Func) : Func :=
  { f.slotsNamed (locals.filter (·.functionIndex == index)) with
    name := ((functions.find? (·.index == index)).map (.ofString ·.value)).getD f.name }

/-- Whether a field imports a function. -/
def Node.importsFunc : Node → Bool
  | moduleImport ⟨_, _, .func _, _⟩ => true
  | _ => false

/-- Fields whose functions get names, where functions are counted from an index on. -/
def fieldsNamed (functions : List FunctionName) (locals : List LocalName) (index : Nat) : List Node → List Node
  | [] => []
  | node :: nodes =>
    match node.func? with
    | some f => (f.named functions locals index).toNode :: fieldsNamed functions locals (index + 1) nodes
    | none => node :: fieldsNamed functions locals (if node.importsFunc then index + 1 else index) nodes

/-! ## Names of slots -/

section Slots

variable {ps : List Param} {name? other? : Nat → Option String}

/-- Naming one more slot is naming it in the list of slots. -/
theorem modify_namedSlots (i : Nat) (name : String) : (namedSlots name? ps).modify i ({ · with id := some name }) =
    namedSlots (fun slot => if i = slot then some name else name? slot) ps := by
  refine List.ext_getElem? fun slot => ?_
  rw [namedSlots, namedSlots, List.getElem?_modify, List.getElem?_mapIdx, List.getElem?_mapIdx, Option.map_eq_map,
    Option.map_map]
  congr 1
  funext p
  by_cases here : i = slot
  · simp only [Function.comp_apply, if_pos here, Param.named]
    cases name? slot <;> rfl
  · simp only [Function.comp_apply, if_neg here]

/-- Slots are named by what is said of them. -/
theorem namedSlots_congr (same : ∀ slot < ps.length, name? slot = other? slot) :
    namedSlots name? ps = namedSlots other? ps :=
  List.mapIdx_eq_mapIdx_iff.2 fun slot within => by rw [same slot within]

theorem namedSlots_none : namedSlots (fun _ => none) ps = ps := by
  refine List.ext_getElem? fun slot => ?_
  rw [namedSlots, List.getElem?_mapIdx]
  cases ps[slot]? <;> rfl

theorem length_namedSlots : (namedSlots name? ps).length = ps.length := List.length_mapIdx

/-- The last name of a slot wins. -/
theorem lastName?_concat (names : List LocalName) (name : LocalName) (slot : Nat) :
    lastName? (names ++ [name]) slot = if name.localIndex = slot then some name.value else lastName? names slot := by
  have one : [name].filter (·.localIndex == slot) = if name.localIndex = slot then [name] else [] := by
    split_ifs with here <;> simp [here]
  rw [lastName?, List.filter_append, one]
  split_ifs with here
  · rw [List.getLast?_concat, Option.map_some]
  · rw [List.append_nil, lastName?]

end Slots

namespace Func

open Binary.Decode

/-- A slot is named as the last entry for it says. -/
theorem nameSlot_slotsNamed (names : List LocalName) (name : LocalName) (f : Func) :
    nameSlot (f.slotsNamed names) name = f.slotsNamed (names ++ [name]) := by
  obtain ⟨id, signature, locals, body, metadata⟩ := f
  have last : lastName? (names ++ [name]) =
      fun slot => if name.localIndex = slot then some name.value else lastName? names slot :=
    funext (lastName?_concat names name)
  cases signature with
  | inline s =>
    simp only [nameSlot, slotsNamed, SignatureRef.named, SignatureRef.params, length_namedSlots, last]
    split_ifs with isParam
    · have others : namedSlots (fun slot => lastName? names (s.params.length + slot)) locals =
          namedSlots (fun slot => if name.localIndex = s.params.length + slot then some name.value
            else lastName? names (s.params.length + slot)) locals :=
        namedSlots_congr fun slot _ => by rw [if_neg (by omega)]
      rw [modify_namedSlots, others]
    · have params : namedSlots (lastName? names) s.params =
          namedSlots (fun slot => if name.localIndex = slot then some name.value else lastName? names slot) s.params :=
        namedSlots_congr fun slot within => by rw [if_neg (by omega)]
      have slots (slot : Nat) : name.localIndex - s.params.length = slot ↔ name.localIndex = s.params.length + slot := by
        omega
      rw [modify_namedSlots, params]
      simp only [slots]
  | ref index =>
    simp only [nameSlot, slotsNamed, SignatureRef.named, SignatureRef.params, modify_namedSlots, last, List.length_nil,
      Nat.zero_add]

theorem slotsNamed_nil (f : Func) : f.slotsNamed [] = f := by
  obtain ⟨id, signature, locals, body, metadata⟩ := f
  have none_ : lastName? [] = fun _ => none := rfl
  cases signature with
  | inline s => simp only [slotsNamed, SignatureRef.named, none_, namedSlots_none]
  | ref index => simp only [slotsNamed, SignatureRef.named, none_, namedSlots_none]

/-- Names that are given one after the other are given at once. -/
theorem foldl_nameSlot (names : List LocalName) (f : Func) : names.foldl nameSlot f = f.slotsNamed names := by
  induction names using List.reverseRecOn with
  | nil => exact f.slotsNamed_nil.symm
  | append_singleton names name ih =>
    rw [List.foldl_append, ih, List.foldl_cons, List.foldl_nil, nameSlot_slotsNamed]

/-- Putting names into a function is naming it, its parameters and its locals. -/
theorem applyNames_eq_named (metadata : ModuleMetadata) (index : Nat) (f : Func) :
    applyNames metadata index f = f.named metadata.functionNames metadata.localNames index := by
  unfold applyNames
  rw [foldl_nameSlot, named]
  cases metadata.functionNames.find? (·.index == index) <;> rfl

/-- Names that are taken away are gone. -/
theorem unnamed_unnamed (k : Nat) (f : Func) : (f.unnamed k).unnamed k = f.unnamed k := by
  have twice (ps : List Param) : (ps.map .unnamed).map Param.unnamed = ps.map .unnamed := by
    rw [List.map_map]
    rfl
  obtain ⟨id, signature, locals, body, metadata⟩ := f
  cases signature with
  | inline s => simp only [unnamed, SignatureRef.unnamed, twice]
  | ref index => simp only [unnamed, SignatureRef.unnamed, twice]

end Func

/-! ## Fields -/

namespace Binary

open Outcome Decode

/-- Name sections are passed over. -/
def DecoderOptions.nameless : DecoderOptions := ⟨false, false, false, true⟩

section Fields

variable {functions : List FunctionName} {locals : List LocalName} {nodes rest : List Node} {index : Nat}

/-- Fields other than functions stay, and those that import a function take an index. -/
theorem fieldsNamed_append (others : ∀ node ∈ nodes, node.func? = none) :
    fieldsNamed functions locals index (nodes ++ rest) =
      nodes ++ fieldsNamed functions locals (index + nodes.countP Node.importsFunc) rest := by
  induction nodes generalizing index with
  | nil => rfl
  | cons node nodes ih =>
    obtain ⟨here, there⟩ := List.forall_mem_cons.1 others
    rw [List.cons_append, fieldsNamed, here, List.countP_cons]
    dsimp only
    rw [ih there, List.cons_append]
    split_ifs
    · rw [Nat.add_assoc, Nat.add_comm 1]
    · rfl

/-- Functions in a row are named by their numbers. -/
theorem fieldsNamed_funcs (fs : List Func) : fieldsNamed functions locals index (fs.map Func.toNode ++ rest) =
    ((fs.zipIdx index).map fun f => f.1.named functions locals f.2).map Func.toNode ++
      fieldsNamed functions locals (index + fs.length) rest := by
  induction fs generalizing index with
  | nil => rfl
  | cons f fs ih =>
    rw [List.length_cons, ← Nat.succ_add_eq_add_succ]
    exact congrArg ((f.named functions locals index).toNode :: ·) ih

/-- Imported functions come first among the numbers of functions. -/
theorem countP_importsFunc (es : List Entry) (k : Nat) :
    (numbered (Entry.hasKind .table) (fun k => Entry.field k k) k es).countP Node.importsFunc = importedFuncs es := by
  induction es generalizing k with
  | nil => rfl
  | cons x es ih =>
    have one : (x.field k k).toList.countP Node.importsFunc = if x.isImportedFunc then 1 else 0 := by
      cases x with
      | imported module name what => cases what <;> rfl
      | _ => rfl
    rw [numbered, List.countP_append, ih, one, importedFuncs, importedFuncs, List.countP_cons, Nat.add_comm]

/-- A declared function with its body has no names but those of the name sections. -/
theorem defineWithout_named (metadata : ModuleMetadata) (f : DeclaredFunc × Nat) (c : CodeEntry) :
    (defineWithout .nameless (metadata.without .nameless) f c).named metadata.functionNames metadata.localNames f.2 =
      define metadata f c := by
  rw [define, Func.applyNames_eq_named]
  rfl

/-- Definitions without names are named by the name section as they would have been with it. -/
theorem definitions_named (metadata : ModuleMetadata) (fs : List DeclaredFunc) (i : Nat) (cs : List CodeEntry) :
    ((List.zipWith (defineWithout .nameless (metadata.without .nameless)) (fs.zipIdx i) cs).zipIdx i).map
      (fun f => f.1.named metadata.functionNames metadata.localNames f.2) =
      List.zipWith (define metadata) (fs.zipIdx i) cs := by
  induction fs generalizing i cs with
  | nil => rfl
  | cons f fs ih =>
    cases cs with
    | nil => rfl
    | cons c cs => exact congrArg₂ List.cons (defineWithout_named metadata (f, i) c) (ih (i + 1) cs)

/-- The fields of a module are those without names with the names put in. -/
theorem Gathered.fieldsNamed_moduleOf {total : Nat} {es : List Entry} {d : Decoder} (gathered : Gathered total es d) :
    fieldsNamed d.metadata.functionNames d.metadata.localNames 0
      (fieldsWithout .nameless 0 (moduleOf d.metadata es).fields) = (moduleOf d.metadata es).fields := by
  have all : (fieldsOf es).filter DecoderOptions.nameless.keeps = fieldsOf es := List.filter_eq_self.2 fun _ _ => rfl
  have exports (index : Nat) : fieldsNamed d.metadata.functionNames d.metadata.localNames index
      (es.filterMap Entry.export?) = es.filterMap Entry.export? := by
    conv_lhs => rw [← List.append_nil (es.filterMap Entry.export?)]
    rw [fieldsNamed_append fun node inside => (plain_exports node inside).1, fieldsNamed, List.append_nil]
  rw [gathered.fieldsWithout_moduleOf, all, fieldsNamed_append func?_fieldsOf, tailWithout, fieldsNamed_funcs, exports,
    fieldsOf, countP_importsFunc, Nat.zero_add, definitions_named, moduleOf, List.append_assoc]
  rfl

/-- Without names each function has the name that is generated for it. -/
theorem unnamed_of_fieldsWithout {k j : Nat} {f : Func}
    (here : ((fieldsWithout .nameless k nodes).filterMap Node.func?)[j]? = some f) : f.unnamed (k + j) = f := by
  induction nodes generalizing k j with
  | nil => cases here
  | cons node nodes ih =>
    rw [fieldsWithout] at here
    cases given : node.func? with
    | none =>
      simp only [given, show DecoderOptions.nameless.keeps node = true from rfl, if_true, List.filterMap_cons] at here
      exact ih here
    | some g =>
      simp only [given] at here
      cases j with
      | zero =>
        obtain rfl : g.unnamed k = f := Option.some.inj here
        exact g.unnamed_unnamed k
      | succ j =>
        rw [← Nat.succ_add_eq_add_succ]
        exact ih here

end Fields

/-- **Names of functions and locals change nothing else.**  What decodes also decodes to a module without names, when
its name sections are passed over: each of its functions has a generated name, and no parameter or local has one.  The
decoded module is this one with the names from its name sections, all of which are taken together in their order.  The
function of an index, where imported functions are counted, has the first name that is given for this index, or else
its generated one, and each of its parameters and locals the last name for its slot. -/
theorem names_of_decode {bytes : List UInt8} {p : Program} (decodes : decode .default bytes = .ok p) :
    ∃ (m m₀ : Module) (metadata : ModuleMetadata) (ids : List SectionId) (parts : List NamePart),
      p = ⟨[m.toNode]⟩ ∧ decode .nameless bytes = .ok ⟨[m₀.toNode]⟩ ∧
      Tiles bytes 8 ids metadata.sections ∧ HasNames bytes ids metadata.sections parts ∧
      metadata.functionNames = parts.flatMap NamePart.functionNames ∧
      metadata.localNames = parts.flatMap NamePart.localNames ∧
      m = ⟨m₀.id, fieldsNamed metadata.functionNames metadata.localNames 0 m₀.fields, some metadata⟩ ∧
      m₀.metadata = some { metadata with functionNames := [], localNames := [], moduleName := none } ∧
      ∀ (k : Nat) (f : Func), (m₀.fields.filterMap Node.func?)[k]? = some f → f.unnamed k = f := by
  obtain ⟨d₁, d, es, begins, reads, gathered, enough, rfl⟩ := gathered_of_decode decodes
  obtain ⟨n, only, rfl⟩ := takes_header _ () d₁ rfl begins
  have later : (Reader.start bytes).Later d₁.reader := ⟨8, only.1, only.reader_eq⟩
  obtain ⟨ids, ss, recorded, last⟩ := recorded_of_sections later (Nat.lt_succ_self _) reads
  obtain ⟨parts, lists, brings⟩ := recorded.names (gathered_of_header begins).options
  obtain ⟨shift, d', abridges, settled, leaves⟩ := gathered.decode_abridged begins reads enough .nameless
  have sections : d.metadata.sections = ss := by
    rw [recorded.sections, only.sameSections.1]
    rfl
  have tiles := recorded.tiles last
  rw [only.pos_eq, ← sections] at tiles
  rw [← sections] at lists
  have functions := brings.functions
  have locals := brings.locals
  rw [only.sameNames.functions] at functions
  rw [only.sameNames.locals] at locals
  refine ⟨moduleOf d.metadata es, ⟨none, _, some (d.metadata.without .nameless)⟩, d.metadata, ids, parts, rfl, leaves,
    tiles, lists, functions, locals, ?_, rfl, ?_⟩
  · rw [gathered.fields_eq abridges settled rfl, gathered.fieldsNamed_moduleOf]
    rfl
  · intro k f here
    rw [gathered.fields_eq abridges settled rfl] at here
    have same := unnamed_of_fieldsWithout here
    rwa [Nat.zero_add] at same

/-- A module with an imported function and another one, and with two name sections.  The first one is at the beginning
and names both functions and the parameter of the second; the other is at the end and names the second again, its
parameter again, its local and a local that it does not have. -/
def namedTwice : List UInt8 :=
  [0x00, 0x61, 0x73, 0x6d, 0x01, 0x00, 0x00, 0x00,
    0x00, 0x16, 0x04, 0x6e, 0x61, 0x6d, 0x65,
    0x01, 0x07, 0x02, 0x00, 0x01, 0x61, 0x01, 0x01, 0x62,
    0x02, 0x06, 0x01, 0x01, 0x01, 0x00, 0x01, 0x78,
    0x01, 0x05, 0x01, 0x60, 0x01, 0x7f, 0x00,
    0x02, 0x07, 0x01, 0x01, 0x6d, 0x01, 0x66, 0x00, 0x00,
    0x03, 0x02, 0x01, 0x00,
    0x0a, 0x06, 0x01, 0x04, 0x01, 0x01, 0x7e, 0x0b,
    0x00, 0x19, 0x04, 0x6e, 0x61, 0x6d, 0x65,
    0x01, 0x04, 0x01, 0x01, 0x01, 0x63,
    0x02, 0x0c, 0x01, 0x01, 0x03, 0x00, 0x01, 0x79, 0x01, 0x01, 0x7a, 0x05, 0x01, 0x77]

theorem names_of_decode_namedTwice : ∃ p, decode .default namedTwice = .ok p ∧
    ∃ (m m₀ : Module) (metadata : ModuleMetadata) (ids : List SectionId) (parts : List NamePart),
      p = ⟨[m.toNode]⟩ ∧ decode .nameless namedTwice = .ok ⟨[m₀.toNode]⟩ ∧
      Tiles namedTwice 8 ids metadata.sections ∧ HasNames namedTwice ids metadata.sections parts ∧
      metadata.functionNames = parts.flatMap NamePart.functionNames ∧
      metadata.localNames = parts.flatMap NamePart.localNames ∧
      m = ⟨m₀.id, fieldsNamed metadata.functionNames metadata.localNames 0 m₀.fields, some metadata⟩ ∧
      m₀.metadata = some { metadata with functionNames := [], localNames := [], moduleName := none } ∧
      ∀ (k : Nat) (f : Func), (m₀.fields.filterMap Node.func?)[k]? = some f → f.unnamed k = f := by
  have succeeds : (decode .default namedTwice).isOk = true := by decide +kernel
  cases decodes : decode .default namedTwice with
  | ok p => exact ⟨p, rfl, names_of_decode decodes⟩
  | error e =>
    rw [decodes] at succeeds
    cases succeeds

end Binary

end WasmEngine
