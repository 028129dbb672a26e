import WasmEngine.Proofs.Binary.FieldBounds

/-!
# Written modules are decoded to their fields

What is written of a module is decoded to a module with the same fields section by section: literals and
references in the spelling of the decoder, without the names of labels and parameters, and with the
elements inside of tables as segments (`reads_of_listed`).
-/

namespace WasmEngine.Binary

open Node Decode

/-! ## What is the same -/

/-- Instructions are read as others, up to the names of labels in the spelling of the decoder. -/
def CodeReads (nodes nodes' : List Node) : Prop := unlabelledIn nodes' = unlabelledIn (respelledIn nodes)

/-- A signature in place is read as another one of the same type. -/
def SignatureReads (sig sig' : SignatureRef) : Prop :=
  ∃ s s', sig = .inline s ∧ sig' = .inline s' ∧ s'.funcType = s.funcType

/-- What an import brings in is read as something of its type.  A function takes the name of the import. -/
def DescrReads (name : String) : ImportDescr → ImportDescr → Prop
  | .func d, .func d' => SignatureReads d.signature d'.signature ∧ d'.id = .ofString name
  | .table t, .table t' => t'.limits = t.limits
  | .memory m, .memory m' => m'.limits = m.limits
  | .global t, .global t' => t' = t
  | _, _ => False

/-- An import is read as another one. -/
structure ImportReads (i i' : ModuleImport) : Prop where
  module : i'.module = i.module
  name : i'.name = i.name
  descr : DescrReads i.name i.descr i'.descr

/-- A function is read as another one, and keeps its name if that was spelled. -/
structure FuncReads (g g' : Func) : Prop where
  name : g.name.isSynthesized = false → g'.name = .ofString g.name.value
  signature : SignatureReads g.signature g'.signature
  locals : g'.locals.map Param.valtype = g.locals.map Param.valtype
  body : CodeReads g.body g'.body

/-- An element segment is read as another one. -/
structure ElemReads (e e' : Index × List Node × List Index) : Prop where
  target : e'.1 = e.1.respelled
  offset : CodeReads e.2.1 e'.2.1
  funcs : e'.2.2 = e.2.2.map Index.respelled

/-- A data segment is read as another one. -/
structure DataReads (d d' : Index × List Node × List UInt8) : Prop where
  target : d'.1 = d.1.respelled
  offset : CodeReads d.2.1 d'.2.1
  init : d'.2.2 = d.2.2

/-- An export with its reference in the spelling of the decoder. -/
def respelledExport (e : ModuleExport) : ModuleExport := ⟨e.name, e.descr.kind, e.descr.id.respelled⟩

/-- The fields of a module are read as those of another one. -/
structure FieldsRead (f f' : Encode.Fields) : Prop where
  types : f.types.map (·.functype.funcType) <+: f'.types.map (·.functype.funcType)
  imports : List.Forall₂ ImportReads f.imports f'.imports
  funcs : List.Forall₂ FuncReads f.funcs f'.funcs
  tables : List.Forall₂ (fun t t' => t'.limits = t.limits ∧ t'.elements = []) f.tables f'.tables
  memories : List.Forall₂ (fun m m' => m'.limits = m.limits) f.memories f'.memories
  globals : List.Forall₂ (fun g g' => g'.1 = g.1 ∧ CodeReads g.2 g'.2) f.globals f'.globals
  exports : f'.exports = f.exports.map respelledExport
  starts : f'.starts = f.starts.map Index.respelled
  elems : List.Forall₂ ElemReads f.segments f'.elems
  data : List.Forall₂ DataReads f.data f'.data

/-! ## One section -/

section Sections

variable {α β : Type} {R : α → β → Prop} {id : SectionId} {as : List α} {g : α → Entry}
  {es ys : List Entry}

/-- Two relations of lists in a row are one. -/
theorem forall₂_through {γ : Type} {S : β → γ → Prop} {Q : γ → α → Prop} {bs : List β} {cs : List γ}
    (first : List.Forall₂ S bs cs) (second : List.Forall₂ Q cs as)
    (both : ∀ b c, S b c → ∀ a ∈ as, Q c a → R a b) : List.Forall₂ R as bs := by
  induction first generalizing as with
  | nil =>
    cases second
    exact .nil
  | cons here _ ih =>
    cases second with
    | cons there others =>
      exact .cons (both _ _ here _ List.mem_cons_self there)
        (ih others fun b c related a inside => both b c related a (List.mem_cons_of_mem _ inside))

/-- A list whose items are given by those of another is the image of it. -/
theorem eq_map_of_forall₂ {h : α → β} {bs : List β} (each : List.Forall₂ (fun a b => b = h a) as bs) :
    bs = as.map h := by
  rw [← List.forall₂_eq_eq_eq, List.forall₂_map_right_iff]
  exact each.flip

variable (same : ys.map Entry.plain = es.map Entry.plain) (written : ofSection id es = as.map g)
include same written

/-- What one section of a decoded module gives is related to the fields that were written in it. -/
theorem forall₂_reads {counts : Entry → Bool} {pick : Nat → Entry → Option β}
    (here : ∀ k, ∀ a ∈ as, ∀ y, y.plain = (g a).plain → ∃ b, pick k y = some b ∧ R a b)
    (elsewhere : ∀ k x, x.home ≠ id → pick k x = none) (k : Nat) :
    List.Forall₂ R as (numbered counts pick k ys) := by
  have plain : List.Forall₂ (fun y a => y.plain = (g a).plain) (ofSection id ys) as := by
    have entries := forall₂_of_plain (ofSection_congr same id)
    rwa [written, List.forall₂_map_right_iff] at entries
  have given : List.Forall₂ (fun b y => ∀ a ∈ as, y.plain = (g a).plain → R a b)
      (numbered counts pick k ys) (ofSection id ys) := by
    refine forall₂_numbered (fun k y inside home => ?_) elsewhere k
    obtain ⟨a, listed, related⟩ := exists_of_forall₂ plain.flip (mem_ofSection.2 ⟨inside, home⟩)
    obtain ⟨b, picked, -⟩ := here k a listed y related
    refine ⟨b, picked, fun a' listed' related' => ?_⟩
    obtain ⟨b', picked', holds⟩ := here k a' listed' y related'
    rw [picked] at picked'
    cases picked'
    exact holds
  exact forall₂_through given plain fun b y related a inside => related a inside

/-- What is picked from the fields of a decoded module is related to what was written in its section. -/
theorem PicksSection.forall₂_reads {pick : Node → Option β} (picks : PicksSection id pick)
    (metadata : ModuleMetadata)
    (here : ∀ k, ∀ a ∈ as, ∀ y : Entry, y.plain = (g a).plain →
      ∃ b, (y.field k k).bind pick = some b ∧ R a b) :
    List.Forall₂ R as ((moduleOf metadata ys).fields.filterMap pick) := by
  rw [filterMap_moduleOf metadata ys picks.notFunc picks.notExport]
  exact Binary.forall₂_reads same written here picks.elsewhere 0

/-- What is picked from the entries of one section reads back what they were made of. -/
theorem forall₂_reads_const {pick : Entry → Option β}
    (here : ∀ a ∈ as, ∀ y, y.plain = (g a).plain → ∃ b, pick y = some b ∧ R a b)
    (elsewhere : ∀ x, x.home ≠ id → pick x = none) : List.Forall₂ R as (ys.filterMap pick) := by
  rw [← numbered_const (fun _ => false) pick 0]
  exact forall₂_reads same written (fun _ => here) (fun _ => elsewhere) 0

end Sections

/-! ## All sections -/

section Fields

variable {f : Encode.Fields} {T : List Signature} {ys : List Entry} (metadata : ModuleMetadata)
  (same : ys.map Entry.plain = (f.entries T).map Entry.plain)

theorem reads_descr {i : ModuleImport}
    (written : i.descr.IsWritten SignatureRef.IsInline) (k position : Nat) :
    DescrReads i.name i.descr (Entry.descr i.name k position (.ofDescr i.descr)) := by
  cases descr : i.descr with
  | func d =>
    rw [descr] at written
    obtain ⟨s, inline⟩ := written
    refine ⟨⟨s, _, inline, rfl, ?_⟩, rfl⟩
    rw [inline]
    exact s.funcType_anonymous
  | table t => rfl
  | memory m => rfl
  | global t => rfl

/-- Positions are respelled as numbers. -/
theorem ofNat_positions {is : List Index} (positions : ∀ i ∈ is, i.IsPosition) :
    (is.map Index.position).map Index.ofNat = is.map Index.respelled := by
  rw [List.map_map]
  exact List.map_congr_left fun i inside => (position_of_isPosition (positions i inside)).2.symm

include same

theorem reads_imports (encodable : f.Encodable Index.IsPosition) : List.Forall₂ ImportReads f.imports
    (Encode.Fields.ofModule (moduleOf metadata ys)).imports := by
  refine picks_imports.forall₂_reads same (Encode.ofSection_entries .imports) metadata fun k i listed y plain => ?_
  cases y with
  | imported module name what =>
    cases plain
    exact ⟨_, rfl, rfl, rfl, reads_descr (encodable.imports i listed) k k⟩
  | _ => cases plain

theorem reads_tables : List.Forall₂ (fun t t' => t'.limits = t.limits ∧ t'.elements = []) f.tables
    (Encode.Fields.ofModule (moduleOf metadata ys)).tables := by
  refine picks_tables.forall₂_reads same (Encode.ofSection_entries .table) metadata fun k t listed y plain => ?_
  cases y with
  | table l =>
    cases plain
    exact ⟨_, rfl, rfl, rfl⟩
  | _ => cases plain

theorem reads_memories : List.Forall₂ (fun m m' => m'.limits = m.limits) f.memories
    (Encode.Fields.ofModule (moduleOf metadata ys)).memories := by
  refine picks_memories.forall₂_reads same (Encode.ofSection_entries .memory) metadata fun k m listed y plain => ?_
  cases y with
  | memory l =>
    cases plain
    exact ⟨_, rfl, rfl⟩
  | _ => cases plain

theorem reads_globals : List.Forall₂ (fun g g' => g'.1 = g.1 ∧ CodeReads g.2 g'.2) f.globals
    (Encode.Fields.ofModule (moduleOf metadata ys)).globals := by
  refine picks_globals.forall₂_reads same (Encode.ofSection_entries .global) metadata fun k g listed y plain => ?_
  cases y with
  | global t init =>
    obtain ⟨type, init⟩ := Entry.global.inj plain
    exact ⟨_, rfl, type, init⟩
  | _ => cases plain

theorem reads_starts (positions : ∀ i ∈ f.starts, i.IsPosition) :
    (Encode.Fields.ofModule (moduleOf metadata ys)).starts = f.starts.map Index.respelled := by
  have each : List.Forall₂ (fun i i' => i' = i.respelled) f.starts
      (Encode.Fields.ofModule (moduleOf metadata ys)).starts := by
    refine picks_starts.forall₂_reads same (Encode.ofSection_entries .start) metadata fun k i listed y plain => ?_
    cases y with
    | start n =>
      cases plain
      exact ⟨_, rfl, (position_of_isPosition (positions i listed)).2.symm⟩
    | _ => cases plain
  exact eq_map_of_forall₂ each

theorem reads_exports (positions : ∀ e ∈ f.exports, e.descr.id.IsPosition) :
    (Encode.Fields.ofModule (moduleOf metadata ys)).exports = f.exports.map respelledExport := by
  have each : List.Forall₂ (fun e e' => e' = respelledExport e) f.exports
      (Encode.Fields.ofModule (moduleOf metadata ys)).exports := by
    show List.Forall₂ _ _ ((moduleOf metadata ys).fields.filterMap _)
    rw [exports_moduleOf metadata ys (fun _ => rfl) fun k x node given => by
      cases x with
      | func | exported | code => cases given
      | _ => cases given; rfl]
    refine forall₂_reads_const same (Encode.ofSection_entries .exports) (fun e listed y plain => ?_)
      fun x other => ?_
    · cases y with
      | exported name kind n =>
        cases plain
        refine ⟨_, rfl, ?_⟩
        rw [respelledExport, (position_of_isPosition (positions e listed)).2]
      | _ => cases plain
    · cases x with
      | exported => exact absurd rfl other
      | _ => rfl
  exact eq_map_of_forall₂ each

theorem reads_elems (encodable : f.Encodable Index.IsPosition)
    (fewTables : f.importedTables + f.tables.length < UInt32.size) :
    List.Forall₂ ElemReads f.segments (Encode.Fields.ofModule (moduleOf metadata ys)).elems := by
  refine picks_elems.forall₂_reads same (Encode.ofSection_entries .element) metadata fun k e listed y plain => ?_
  obtain ⟨position, -, positions⟩ := encodable_of_segment encodable fewTables listed
  cases y with
  | elem target offset funcs =>
    obtain ⟨target, offset, funcs⟩ := Entry.elem.inj plain
    refine ⟨_, rfl, ?_, offset, ?_⟩
    · rw [target, (position_of_isPosition position).2]
    · rw [funcs, ofNat_positions positions]
  | _ => cases plain

theorem reads_data (encodable : f.Encodable Index.IsPosition) :
    List.Forall₂ DataReads f.data (Encode.Fields.ofModule (moduleOf metadata ys)).data := by
  refine picks_data.forall₂_reads same (Encode.ofSection_entries .data) metadata fun k d listed y plain => ?_
  cases y with
  | data target offset values =>
    obtain ⟨target, offset, values⟩ := Entry.data.inj plain
    refine ⟨_, rfl, ?_, offset, values⟩
    rw [target, (position_of_isPosition (encodable.data d listed).1).2]
  | _ => cases plain

end Fields

/-! ## Functions -/

section Functions

variable {f : Encode.Fields} {T : List Signature} {metadata : ModuleMetadata}

/-- The name of a function that has one is found under its number. -/
theorem find?_names {funcs : List Func} {i k : Nat} {g : Func} (here : funcs[k]? = some g)
    (named : g.name.isSynthesized = false) :
    (((funcs.zipIdx i).filter fun (f, _) => !f.name.isSynthesized).map
      fun (f, p) => (⟨f.name.value, p⟩ : FunctionName)).find? (·.index == i + k) =
        some ⟨g.name.value, i + k⟩ := by
  induction funcs generalizing i k with
  | nil => cases here
  | cons first funcs ih =>
    rw [List.zipIdx_cons, List.filter_cons]
    cases k with
    | zero =>
      cases here
      simp [named]
    | succ k =>
      have later := ih (i := i + 1) (k := k) here
      rw [show i + 1 + k = i + (k + 1) by omega] at later
      split_ifs
      · rw [List.map_cons, List.find?_cons_of_neg (by simp), later]
      · exact later

/-- The function at a position keeps its name if that was spelled. -/
theorem nameOf?_of_names (names : metadata.functionNames = Encode.functionNames f) {k : Nat} {g : Func}
    (here : f.funcs[k]? = some g) (named : g.name.isSynthesized = false) :
    nameOf? metadata (f.importedFuncs + k) = some (.ofString g.name.value) := by
  rw [nameOf?, names, Encode.functionNames, find?_names here named]
  rfl

/-- A function with its body is read as another one, whatever names it gets. -/
theorem reads_define (metadata : ModuleMetadata) (id : Identifier) (i : Nat) {g : Func} {c : CodeEntry}
    (inline : g.signature.IsInline) (locals : c.locals = g.locals.map Param.valtype)
    (body : CodeReads g.body c.body) :
    SignatureReads g.signature (define metadata (⟨id, g.signature.signature, false⟩, i) c).signature ∧
      (define metadata (⟨id, g.signature.signature, false⟩, i) c).locals.map Param.valtype =
        g.locals.map Param.valtype ∧
      CodeReads g.body (define metadata (⟨id, g.signature.signature, false⟩, i) c).body := by
  obtain ⟨s, here⟩ := inline
  obtain ⟨⟨⟨s', inline', type'⟩, locals', body'⟩, -⟩ :=
    shaped_define metadata (⟨id, g.signature.signature, false⟩, i) c
  refine ⟨⟨s, s', here, inline', ?_⟩, locals'.trans locals, ?_⟩
  · rw [type', here]
    exact s.funcType_anonymous
  · rw [body']
    exact body

theorem reads_defined {funcs : List Func} {cs : List CodeEntry} {i j : Nat}
    (codes : List.Forall₂ (fun g c => c.locals = g.locals.map Param.valtype ∧ CodeReads g.body c.body)
      funcs cs) (inline : ∀ g ∈ funcs, g.signature.IsInline)
    (names : ∀ k g, funcs[k]? = some g → g.name.isSynthesized = false →
      nameOf? metadata (i + k) = some (.ofString g.name.value)) :
    List.Forall₂ FuncReads funcs (List.zipWith (define metadata)
      ((declarations j (funcs.map (·.signature.signature))).zipIdx i) cs) := by
  induction codes generalizing i j with
  | nil => exact .nil
  | @cons g c funcs cs first _ ih =>
    obtain ⟨here, others⟩ := List.forall_mem_cons.1 inline
    have rest := ih (i := i + 1) (j := j + 1) others fun k g there named => by
      rw [show i + 1 + k = i + (k + 1) by omega]
      exact names (k + 1) g there named
    let id := Identifier.synthesized ("func_" ++ toString j)
    obtain ⟨signature, locals, body⟩ := reads_define metadata id i here first.1 first.2
    refine .cons ⟨fun named => ?_, signature, locals, body⟩ rest
    have found : nameOf? metadata i = _ := names 0 g rfl named
    rw [(shaped_define metadata (⟨id, g.signature.signature, false⟩, i) c).2]
    exact congrArg (Option.getD · _) found

variable {ys : List Entry} (same : ys.map Entry.plain = (f.entries T).map Entry.plain)
include same

/-- The signatures that are read are those of the functions. -/
theorem signaturesOf_entries : signaturesOf ys = f.funcs.map (·.signature.signature) := by
  rw [signaturesOf_congr same, ← signaturesOf_ofSection, Encode.ofSection_entries,
    Encode.Fields.inSection, signaturesOf, List.filterMap_map]
  exact congrFun List.filterMap_eq_map' f.funcs

/-- As many functions are imported as are declared so. -/
theorem importedFuncs_entries : importedFuncs ys = f.importedFuncs := by
  rw [importedFuncs_congr same, ← importedFuncs_ofSection, Encode.ofSection_entries,
    Encode.Fields.inSection, importedFuncs, List.countP_map, Encode.Fields.importedFuncs,
    ← List.countP_eq_length_filter]
  refine List.countP_congr fun i _ => ?_
  obtain ⟨m, name, descr, id⟩ := i
  cases descr <;> rfl

/-- The bodies that are read are those of the functions, with their locals. -/
theorem codeOf_entries :
    List.Forall₂ (fun g c => c.locals = g.locals.map Param.valtype ∧ CodeReads g.body c.body)
      f.funcs (codeOf ys) := by
  have written : codeOf (f.entries T) = f.funcs.map fun g =>
      ⟨respelledIn g.body, g.locals.map Param.valtype, 0⟩ := by
    rw [← codeOf_map (codeOf (f.entries T)), ← ofSection_code, Encode.ofSection_entries,
      ← codeOf_map (f.funcs.map _), List.map_map]
    rfl
  have codes := sameCode_of_plain same
  rw [written, List.forall₂_map_left_iff] at codes
  exact codes

theorem reads_funcs (inline : ∀ g ∈ f.funcs, g.signature.IsInline)
    (names : metadata.functionNames = Encode.functionNames f) :
    List.Forall₂ FuncReads f.funcs (Encode.Fields.ofModule (moduleOf metadata ys)).funcs := by
  show List.Forall₂ _ _ ((moduleOf metadata ys).fields.filterMap _)
  rw [funcs_moduleOf, definitions, signaturesOf_entries same, importedFuncs_entries same]
  exact reads_defined (codeOf_entries same) inline fun k g here named => nameOf?_of_names names here named

end Functions

/-! ## Modules -/

/-- What is written of a module whose sections are short enough is decoded to entries that differ from its own at
most in the names of labels and the sizes of bodies. -/
theorem entries_of_listed {m : Module} {T : List Signature} {o : DecoderOptions} (complete : o.Complete)
    (listed : (Encode.Fields.ofModule m).Listed T)
    (short : ∀ s ∈ sectionsOf ((Encode.Fields.ofModule m).entries T)
      (Encode.functionNames (.ofModule m)), s.2.length < UInt32.size)
    (exports : ∀ e ∈ (Encode.Fields.ofModule m).exports, e.descr.id.position < m.countOf e.descr.kind)
    (single : (Encode.Fields.ofModule m).starts.length ≤ 1) :
    ∃ (metadata : ModuleMetadata) (ys : List Entry), decode o (moduleBytes ((Encode.Fields.ofModule m).entries T)
        (Encode.functionNames (.ofModule m))) = .ok ⟨[(moduleOf metadata ys).toNode]⟩ ∧
      ys.map Entry.plain = ((Encode.Fields.ofModule m).entries T).map Entry.plain ∧
      metadata.functionNames = o.namesRead (Encode.functionNames (.ofModule m)) := by
  have grouped := Encode.grouped_entries (f := .ofModule m) (T := T)
  obtain ⟨ys, next, d, same, stands, decodes⟩ :=
    decode_moduleBytes (writable_entries short listed exports single) grouped complete
  have enough : (signaturesOf ys).length ≤ (codeOf ys).length := by
    rw [signaturesOf_entries same, List.length_map, (codeOf_entries same).length_eq]
  have program := (finish_eq_ok_iff (stands.options ▸ complete.code) stands.holds (grouped_congr same grouped)).2
    ⟨enough, rfl⟩
  exact ⟨d.metadata, ys, decodes.trans program, same, stands.names⟩

/-- What is written of a module whose sections are short enough is decoded to its fields. -/
theorem reads_of_listed {m : Module} {T : List Signature}
    (listed : (Encode.Fields.ofModule m).Listed T)
    (declared : (Encode.Fields.ofModule m).types.map (·.functype.funcType) <+: T.map Signature.funcType)
    (short : ∀ s ∈ sectionsOf ((Encode.Fields.ofModule m).entries T)
      (Encode.functionNames (.ofModule m)), s.2.length < UInt32.size)
    (exports : ∀ e ∈ (Encode.Fields.ofModule m).exports, e.descr.id.position < m.countOf e.descr.kind)
    (single : (Encode.Fields.ofModule m).starts.length ≤ 1) :
    ∃ m', decode .default (moduleBytes ((Encode.Fields.ofModule m).entries T)
      (Encode.functionNames (.ofModule m))) = .ok ⟨[m'.toNode]⟩ ∧
        FieldsRead (.ofModule m) (.ofModule m') := by
  obtain ⟨metadata, ys, decodes, same, names⟩ :=
    entries_of_listed DecoderOptions.complete_default listed short exports single
  have encodable := listed.encodable
  refine ⟨_, decodes, ?_, reads_imports _ same encodable,
    reads_funcs same encodable.signatures names, reads_tables _ same, reads_memories _ same,
    reads_globals _ same, reads_exports _ same encodable.exports, reads_starts _ same encodable.starts,
    reads_elems _ same encodable listed.fewTables, reads_data _ same encodable⟩
  rw [types_moduleOf, typesOf_congr same, Encode.typesOf_entries, List.map_map]
  exact declared

end WasmEngine.Binary
