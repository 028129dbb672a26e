import Mathlib.Data.List.Forall2
import WasmEngine.Proofs.Binary.Assembly

/-!
# Modules are written entry by entry

A module whose fields are written as entries of sections is encoded as the bytes of these entries
(`Encode.module_eq_of_spells`), and the module of entries is one.
-/

namespace WasmEngine.Binary

open Outcome Decode

namespace Encode

variable {α β γ δ : Type} {table : TypeTable}

/-- Steps that leave the types alone give the parts of what is written one after the other. -/
theorem mapM_of_forall₂ {f : α → EncodeM β} {h : α → β → γ} {g : δ → γ} {as : List α} {xs : List δ}
    (each : List.Forall₂ (fun a x => ∃ b, f a table = .ok (b, table) ∧ h a b = g x) as xs) :
    ∃ bs, as.mapM f table = .ok (bs, table) ∧ bs.length = as.length ∧
      as.zipWith h bs = xs.map g := by
  induction each with
  | nil => exact ⟨[], rfl, rfl, rfl⟩
  | cons first others ih =>
    obtain ⟨b, step, same⟩ := first
    obtain ⟨bs, steps, length, sames⟩ := ih
    refine ⟨b :: bs, ?_, congrArg Nat.succ length, ?_⟩
    · rw [List.mapM_cons, encode_bind step, encode_bind steps]
      rfl
    · rw [List.zipWith_cons_cons, same, sames, List.map_cons]

theorem zipWith_snd (h : β → γ) (as : List α) {bs : List β} (same : bs.length = as.length) :
    as.zipWith (fun _ b => h b) bs = bs.map h := by
  induction as generalizing bs with
  | nil =>
    rw [List.length_eq_zero_iff.1 same]
    rfl
  | cons a as ih =>
    cases bs with
    | nil => cases same
    | cons b bs => rw [List.zipWith_cons_cons, ih (Nat.succ.inj same), List.map_cons]

/-- Steps that leave the types alone, where what is written does not depend on more than their
results. -/
theorem mapM_of_forall₂_snd {f : α → EncodeM β} {h : β → γ} {g : δ → γ} {as : List α} {xs : List δ}
    (each : List.Forall₂ (fun a x => ∃ b, f a table = .ok (b, table) ∧ h b = g x) as xs) :
    ∃ bs, as.mapM f table = .ok (bs, table) ∧ bs.map h = xs.map g := by
  obtain ⟨bs, steps, length, same⟩ := mapM_of_forall₂ (h := fun _ b => h b) each
  exact ⟨bs, steps, (zipWith_snd h as length).symm.trans same⟩

/-- Steps that leave the types alone and give what is written. -/
theorem mapM_eq_of_forall₂ {f : α → EncodeM β} {g : δ → β} {as : List α} {xs : List δ}
    (each : List.Forall₂ (fun a x => f a table = .ok (g x, table)) as xs) :
    as.mapM f table = .ok (xs.map g, table) := by
  obtain ⟨bs, steps, same⟩ := mapM_of_forall₂_snd (h := id) (g := g)
    (each.imp fun a x step => ⟨g x, step, rfl⟩)
  rw [List.map_id] at same
  rwa [← same]

/-- The fields of a module are written as entries. -/
structure Spells (table : TypeTable) (fields : Fields) (es : List Entry) : Prop where
  types : table.entries.map funcType = (ofSection .type es).map (Entry.bytes (typesOf es))
  imports : List.Forall₂ (fun i x => ∃ t, importType i table = .ok (t, table) ∧
    importEntry i t = x.bytes (typesOf es)) fields.imports (ofSection .imports es)
  signatures : List.Forall₂ (fun f x => ∃ t, typeIndex f.signature table = .ok (t, table) ∧
    u32 t = x.bytes (typesOf es)) fields.funcs (ofSection .function es)
  bodies : List.Forall₂ (fun f x => ∃ b, body f table = .ok (b, table) ∧
    Write.byteVector b = x.bytes (typesOf es)) fields.funcs (ofSection .code es)
  tables : fields.tables.map tableType = (ofSection .table es).map (Entry.bytes (typesOf es))
  memories : fields.memories.map (limits ·.limits) =
    (ofSection .memory es).map (Entry.bytes (typesOf es))
  globals : List.Forall₂ (fun g x => globalEntry g table = .ok (x.bytes (typesOf es), table))
    fields.globals (ofSection .global es)
  exports : List.Forall₂ (fun e x => exportEntry e = .ok (x.bytes (typesOf es)))
    fields.exports (ofSection .exports es)
  starts : List.Forall₂ (fun i x => ∃ n, index i = .ok n ∧ u32 n = x.bytes (typesOf es))
    fields.starts (ofSection .start es)
  single : fields.starts.length ≤ 1
  elements : ∃ inline elems, ofSection .element es = inline.filterMap id ++ elems ∧
    List.Forall₂ (fun t x => inlineElements t.2 t.1 = .ok (x.map (Entry.bytes (typesOf es))))
      (fields.tables.zipIdx fields.importedTables) inline ∧
    List.Forall₂ (fun e x => elemEntry e table = .ok (x.bytes (typesOf es), table)) fields.elems elems
  data : List.Forall₂ (fun d x => dataEntry d table = .ok (x.bytes (typesOf es), table))
    fields.data (ofSection .data es)

/-- The names that go to the name section. -/
def functionNames (fields : Fields) : List FunctionName :=
  ((fields.funcs.zipIdx fields.importedFuncs).filter fun (f, _) => !f.name.isSynthesized).map
    fun (f, position) => ⟨f.name.value, position⟩

/-- The name section lists the names of the functions that have one. -/
theorem nameSection_eq (fields : Fields) :
    nameSection fields.importedFuncs fields.funcs = nameSectionBytes (functionNames fields) := by
  have bytes : vector (fun (f, position) => u32 position ++ Write.name f.name.value)
      ((fields.funcs.zipIdx fields.importedFuncs).filter fun (f, _) => !f.name.isSynthesized) =
        namesBytes (functionNames fields) := by
    rw [namesBytes, functionNames, vector, vector, List.length_map, List.flatMap_map]
    rfl
  unfold nameSection nameSectionBytes
  dsimp only
  rw [bytes, functionNames, List.isEmpty_map]
  rfl

/-- Any section but the one of the start function is its entries after their count. -/
theorem vectorSection_eq {id : SectionId} (notStart : id ≠ .start) (T : List Signature)
    (xs : List Entry) : vectorSection id (xs.map (Entry.bytes T)) = sectionBytes T id xs := by
  rw [vectorSection, sectionBytes, sectionContents, if_neg notStart, List.isEmpty_map,
    List.length_map, List.flatMap_def]

/-- The start section is that of its one entry. -/
theorem startSection_eq {T : List Signature} {starts : List Index} {xs : List Entry}
    (each : List.Forall₂ (fun i x => ∃ n, index i = .ok n ∧ u32 n = x.bytes T) starts xs)
    (single : starts.length ≤ 1) : startSection starts = .ok (sectionBytes T .start xs) := by
  cases each with
  | nil => rfl
  | cons first others =>
    obtain ⟨n, number, same⟩ := first
    cases others with
    | cons => simp at single
    | nil =>
      unfold startSection
      simp only [List.getLast?_singleton, number]
      rw [sectionBytes, sectionContents, if_pos rfl, List.flatMap_singleton, ← same]
      rfl

/-- A module that is written as entries is encoded as their bytes. -/
theorem module_eq_of_spells {fields : Fields} {es : List Entry} (spells : Spells table fields es) :
    module fields table = .ok (moduleBytes es (functionNames fields), table) := by
  obtain ⟨importTypes, imports, -, imports'⟩ := mapM_of_forall₂ spells.imports
  obtain ⟨funcTypes, signatures, signatures'⟩ := mapM_of_forall₂_snd spells.signatures
  obtain ⟨bodies, code, code'⟩ := mapM_of_forall₂_snd spells.bodies
  have lift {γ : Type} {x : Except EncodeError γ} {a : γ} (first : x = .ok a) :
      (liftM x : EncodeM γ) table = .ok (a, table) := encode_lift first
  have exports := mapM_eq_of_forall₂ (f := fun e => liftM (exportEntry e))
    (spells.exports.imp fun e x step => lift step)
  obtain ⟨inline, elems, segments, inlines, explicit⟩ := spells.elements
  have inlines' := mapM_eq_of_forall₂ (f := fun t : TableDef × Nat => liftM (inlineElements t.2 t.1))
    (inlines.imp fun t x step => lift step)
  have starts := lift (startSection_eq spells.starts spells.single)
  have state : (get : EncodeM TypeTable) table = .ok (table, table) := rfl
  rw [module, encode_bind imports, encode_bind signatures, encode_bind code, encode_bind state,
    encode_bind (mapM_eq_of_forall₂ spells.globals), encode_bind exports, encode_bind starts,
    encode_bind inlines', encode_bind (mapM_eq_of_forall₂ explicit),
    encode_bind (mapM_eq_of_forall₂ spells.data)]
  have written : (inline.map (Option.map (Entry.bytes (typesOf es)))).filterMap id ++
      elems.map (Entry.bytes (typesOf es)) = (ofSection .element es).map (Entry.bytes (typesOf es)) := by
    rw [segments, List.map_append, List.filterMap_map, List.map_filterMap]
    rfl
  rw [spells.types, imports', signatures', spells.tables, spells.memories, written, code',
    nameSection_eq]
  simp only [vectorSection_eq (T := typesOf es), ne_eq, reduceCtorEq, not_false_eq_true]
  rw [moduleBytes]
  simp only [SectionId.ordered, List.flatMap_cons, List.flatMap_nil, List.append_nil,
    List.append_assoc]
  rfl

end Encode

/-! ## The module of entries -/

section ModuleOf

variable {es : List Entry} {β : Type}

/-- What is picked from the fields of the module of some entries besides functions and exports. -/
theorem filterMap_moduleOf (metadata : ModuleMetadata) (es : List Entry) {g : Node → Option β}
    (notFunc : ∀ f : Func, g f.toNode = none) (notExport : ∀ e, g (.moduleExport e) = none) :
    (moduleOf metadata es).fields.filterMap g =
      numbered (Entry.hasKind .table) (fun k x => (x.field k k).bind g) 0 es := by
  have funcs : ((definitions metadata es).map Func.toNode).filterMap g = [] :=
    List.filterMap_eq_nil_iff.2 fun node inside => by
      obtain ⟨f, -, rfl⟩ := List.mem_map.1 inside
      exact notFunc f
  have exports : (es.filterMap Entry.export?).filterMap g = [] :=
    List.filterMap_eq_nil_iff.2 fun node inside => by
      obtain ⟨x, -, given⟩ := List.mem_filterMap.1 inside
      cases x with
      | exported => cases given; exact notExport _
      | _ => cases given
  rw [moduleOf, List.filterMap_append, List.filterMap_append, funcs, exports, List.append_nil,
    List.append_nil, fieldsOf, filterMap_numbered]

/-- Only entries of one section become fields from which something is picked. -/
structure PicksSection (id : SectionId) (pick : Node → Option β) : Prop where
  notFunc : ∀ f : Func, pick f.toNode = none
  notExport : ∀ e, pick (.moduleExport e) = none
  elsewhere : ∀ k x, x.home ≠ id → (Entry.field k k x).bind pick = none

/-- What is picked from the fields is related to the entries of its section one by one. -/
theorem PicksSection.forall₂ {id : SectionId} {pick : Node → Option β} {R : β → Entry → Prop}
    (picks : PicksSection id pick) (metadata : ModuleMetadata)
    (here : ∀ k, ∀ x ∈ es, x.home = id → ∃ b, (x.field k k).bind pick = some b ∧ R b x) :
    List.Forall₂ R ((moduleOf metadata es).fields.filterMap pick) (ofSection id es) := by
  rw [filterMap_moduleOf metadata es picks.notFunc picks.notExport]
  exact forall₂_numbered here picks.elsewhere 0

/-- Imports are picked from the import section. -/
theorem picks_imports : PicksSection .imports fun | .moduleImport i => some i | _ => none where
  notFunc _ := rfl
  notExport _ := rfl
  elsewhere k x other := by
    cases x with
    | imported => exact absurd rfl other
    | _ => rfl

/-- Tables are picked from the table section. -/
theorem picks_tables : PicksSection .table fun | .table t => some t | _ => none where
  notFunc _ := rfl
  notExport _ := rfl
  elsewhere k x other := by
    cases x with
    | table => exact absurd rfl other
    | _ => rfl

theorem picks_memories : PicksSection .memory fun | .memory m => some m | _ => none where
  notFunc _ := rfl
  notExport _ := rfl
  elsewhere k x other := by
    cases x with
    | memory => exact absurd rfl other
    | _ => rfl

theorem picks_globals :
    PicksSection .global fun | .global type init _ => some (type, init) | _ => none where
  notFunc _ := rfl
  notExport _ := rfl
  elsewhere k x other := by
    cases x with
    | global => exact absurd rfl other
    | _ => rfl

/-- Start functions are picked from the start section. -/
theorem picks_starts : PicksSection .start fun | .start i => some i | _ => none where
  notFunc _ := rfl
  notExport _ := rfl
  elsewhere k x other := by
    cases x with
    | start => exact absurd rfl other
    | _ => rfl

theorem picks_elems : PicksSection .element
    fun | .elem target offset funcs => some (target, offset, funcs) | _ => none where
  notFunc _ := rfl
  notExport _ := rfl
  elsewhere k x other := by
    cases x with
    | elem => exact absurd rfl other
    | _ => rfl

/-- Data segments are picked from the data section. -/
theorem picks_data : PicksSection .data
    fun | .data target offset init => some (target, offset, init) | _ => none where
  notFunc _ := rfl
  notExport _ := rfl
  elsewhere k x other := by
    cases x with
    | data => exact absurd rfl other
    | _ => rfl

/-- The functions of a decoded module are its definitions. -/
theorem funcs_moduleOf (metadata : ModuleMetadata) (es : List Entry) :
    (moduleOf metadata es).fields.filterMap Node.func? = definitions metadata es := by
  have fields : (fieldsOf es).filterMap Node.func? = [] :=
    List.filterMap_eq_nil_iff.2 fun node inside => by
      obtain ⟨k, x, -, given⟩ := mem_numbered inside
      cases x with
      | func | exported | code => cases given
      | _ => cases given; rfl
  have exports : (es.filterMap Entry.export?).filterMap Node.func? = [] :=
    List.filterMap_eq_nil_iff.2 fun node inside => by
      obtain ⟨x, -, given⟩ := List.mem_filterMap.1 inside
      cases x with
      | exported => cases given; rfl
      | _ => cases given
  rw [moduleOf, List.filterMap_append, List.filterMap_append, fields, exports, List.append_nil,
    List.nil_append, List.filterMap_map]
  exact List.filterMap_some

/-- What is neither a function nor the field of an entry is picked from the exports. -/
theorem exports_moduleOf (metadata : ModuleMetadata) (es : List Entry) {g : Node → Option β}
    (notFunc : ∀ f : Func, g f.toNode = none) (fieldless : ∀ k x node, Entry.field k k x = some node →
      g node = none) : (moduleOf metadata es).fields.filterMap g =
        es.filterMap fun x => x.export?.bind g := by
  have fields : (fieldsOf es).filterMap g = [] :=
    List.filterMap_eq_nil_iff.2 fun node inside => by
      obtain ⟨k, x, -, given⟩ := mem_numbered inside
      exact fieldless k x node given
  have funcs : ((definitions metadata es).map Func.toNode).filterMap g = [] :=
    List.filterMap_eq_nil_iff.2 fun node inside => by
      obtain ⟨f, -, rfl⟩ := List.mem_map.1 inside
      exact notFunc f
  rw [moduleOf, List.filterMap_append, List.filterMap_append, fields, funcs, List.nil_append,
    List.nil_append, List.filterMap_filterMap]

/-- A number of 32 bits is encoded as itself. -/
theorem index_ofNat {n : Nat} (fits : n < UInt32.size) : Encode.index (.ofNat n) = .ok n := by
  rw [Index.ofNat, Encode.index, toU32_ofInt fits]

theorem indices_ofNat {ns : List Nat} (fits : ∀ n ∈ ns, n < UInt32.size) :
    Encode.indices (ns.map .ofNat) = .ok (Encode.vector Encode.u32 ns) := by
  have numbers : (ns.map Index.ofNat).mapM Encode.index = .ok ns := by
    induction ns with
    | nil => rfl
    | cons n ns ih =>
      obtain ⟨first, others⟩ := List.forall_mem_cons.1 fits
      rw [List.map_cons, List.mapM_cons, index_ofNat first, ih others]
      rfl
  rw [Encode.indices, numbers]
  rfl

/-- A signature that is known has its place in the type section, whatever its parameters are called. -/
theorem typeIndex_of_known {s s' : Signature} {T : List Signature} (known : Known T s)
    (same : s'.funcType = s.funcType) :
    Encode.typeIndex (.inline s') (typeTable T) = .ok (position T s, typeTable T) := by
  have equal : Encode.typeIndex (.inline s') = Encode.typeIndex (.inline s) := by
    funext table
    simp only [Encode.typeIndex, same]
  rw [equal, known.1.typeIndex_eq]

/-- A function of a given shape is written as the body that it was made of. -/
theorem body_of_shaped {type : FuncType} {c : CodeEntry} {f : Func} {T : List Signature}
    (shaped : Shaped type c.locals c.body f) (holds : IsExpression T c.body) :
    Encode.body f (typeTable T) = .ok (bodyBytes T c, typeTable T) := by
  rw [Encode.body, shaped.locals, shaped.body, encode_bind holds.encodes]
  rfl

variable (metadata : ModuleMetadata) (fine : ∀ x ∈ es, x.Fine (typesOf es))
include fine

theorem spells_imports : List.Forall₂ (fun i x => ∃ t,
    Encode.importType i (typeTable (typesOf es)) = .ok (t, typeTable (typesOf es)) ∧
      Encode.importEntry i t = x.bytes (typesOf es))
    (Encode.Fields.ofModule (moduleOf metadata es)).imports (ofSection .imports es) := by
  refine picks_imports.forall₂ metadata fun k x inside home => ?_
  have fine := fine x inside
  cases x with
  | imported module name what =>
    refine ⟨_, rfl, ?_⟩
    cases what with
    | func s =>
      exact ⟨_, typeIndex_of_known fine.2.2 rfl, rfl⟩
    | _ => exact ⟨0, rfl, rfl⟩
  | _ => cases home

theorem spells_globals : List.Forall₂
    (fun g x => Encode.globalEntry g (typeTable (typesOf es)) =
      .ok (x.bytes (typesOf es), typeTable (typesOf es)))
    (Encode.Fields.ofModule (moduleOf metadata es)).globals (ofSection .global es) := by
  refine picks_globals.forall₂ metadata fun k x inside home => ?_
  have fine := fine x inside
  cases x with
  | global t init =>
    refine ⟨_, rfl, ?_⟩
    rw [Encode.globalEntry, encode_bind fine.encodes]
    rfl
  | _ => cases home

theorem spells_elems : List.Forall₂
    (fun e x => Encode.elemEntry e (typeTable (typesOf es)) =
      .ok (x.bytes (typesOf es), typeTable (typesOf es)))
    (Encode.Fields.ofModule (moduleOf metadata es)).elems (ofSection .element es) := by
  refine picks_elems.forall₂ metadata fun k x inside home => ?_
  have fine := fine x inside
  cases x with
  | elem target offset funcs =>
    obtain ⟨fits, holds, fits', all⟩ := fine
    refine ⟨_, rfl, ?_⟩
    rw [Encode.elemEntry, encode_bind (encode_lift (index_ofNat fits)), encode_bind holds.encodes,
      encode_bind (encode_lift (indices_ofNat all))]
    rfl
  | _ => cases home

theorem spells_data : List.Forall₂
    (fun d x => Encode.dataEntry d (typeTable (typesOf es)) =
      .ok (x.bytes (typesOf es), typeTable (typesOf es)))
    (Encode.Fields.ofModule (moduleOf metadata es)).data (ofSection .data es) := by
  refine picks_data.forall₂ metadata fun k x inside home => ?_
  have fine := fine x inside
  cases x with
  | data target offset values =>
    obtain ⟨fits, holds, -, -⟩ := fine
    refine ⟨_, rfl, ?_⟩
    rw [Encode.dataEntry, encode_bind (encode_lift (index_ofNat fits)), encode_bind holds.encodes]
    rfl
  | _ => cases home

theorem spells_starts : List.Forall₂
    (fun i x => ∃ n, Encode.index i = .ok n ∧ Encode.u32 n = x.bytes (typesOf es))
    (Encode.Fields.ofModule (moduleOf metadata es)).starts (ofSection .start es) := by
  refine picks_starts.forall₂ metadata fun k x inside home => ?_
  have fine := fine x inside
  cases x with
  | start n => exact ⟨_, rfl, n, index_ofNat fine, rfl⟩
  | _ => cases home

theorem spells_exports : List.Forall₂
    (fun e x => Encode.exportEntry e = .ok (x.bytes (typesOf es)))
    (Encode.Fields.ofModule (moduleOf metadata es)).exports (ofSection .exports es) := by
  show List.Forall₂ _ ((moduleOf metadata es).fields.filterMap _) _
  rw [exports_moduleOf metadata es (fun _ => rfl) fun k x node given => by
    cases x with
    | func | exported | code => cases given
    | _ => cases given; rfl]
  refine forall₂_filterMap (fun x inside home => ?_) (fun x other => ?_)
  · have fine := fine x inside
    cases x with
    | exported name kind n =>
      refine ⟨_, rfl, ?_⟩
      rw [Encode.exportEntry, index_ofNat fine.2]
      rfl
    | _ => cases home
  · cases x with
    | exported => exact absurd rfl other
    | _ => rfl

omit fine in
theorem map_eq_of_forall₂ {α γ δ : Type} {f : α → γ} {g : δ → γ} {as : List α} {xs : List δ}
    (each : List.Forall₂ (fun a x => f a = g x) as xs) : as.map f = xs.map g := by
  rw [← List.forall₂_eq_eq_eq]
  exact List.forall₂_map_left_iff.2 (List.forall₂_map_right_iff.2 each)

omit fine in
/-- The tables of a decoded module have no elements of their own. -/
theorem elements_moduleOf (t : TableDef)
    (listed : t ∈ (Encode.Fields.ofModule (moduleOf metadata es)).tables) : t.elements = [] := by
  change t ∈ (moduleOf metadata es).fields.filterMap _ at listed
  rw [filterMap_moduleOf metadata es (fun _ => rfl) fun _ => rfl] at listed
  obtain ⟨k, x, -, given⟩ := mem_numbered listed
  cases x with
  | table l => cases given; rfl
  | _ => cases given

omit fine in
theorem spells_tables : List.Forall₂ (fun t x => Encode.tableType t = x.bytes (typesOf es))
    (Encode.Fields.ofModule (moduleOf metadata es)).tables (ofSection .table es) := by
  refine picks_tables.forall₂ metadata fun k x inside home => ?_
  cases x with
  | table l => exact ⟨_, rfl, rfl⟩
  | _ => cases home

omit fine in
theorem spells_memories : List.Forall₂
    (fun m x => Encode.limits m.limits = x.bytes (typesOf es))
    (Encode.Fields.ofModule (moduleOf metadata es)).memories (ofSection .memory es) := by
  refine picks_memories.forall₂ metadata fun k x inside home => ?_
  cases x with
  | memory l => exact ⟨_, rfl, rfl⟩
  | _ => cases home

omit fine in
theorem forall₂_zipWith_left {α γ δ : Type} {R : α → δ → Prop} {S : γ → δ → Prop} {f : α → β → γ}
    {as : List α} {bs : List β} {xs : List δ} (each : List.Forall₂ R as xs)
    (enough : as.length ≤ bs.length) (gives : ∀ a b x, R a x → S (f a b) x) :
    List.Forall₂ S (List.zipWith f as bs) xs := by
  induction each generalizing bs with
  | nil => exact .nil
  | cons first others ih =>
    cases bs with
    | nil => cases enough
    | cons b bs => exact .cons (gives _ b _ first) (ih (Nat.le_of_succ_le_succ enough))

omit fine in
theorem forall₂_zipWith_right {α γ δ : Type} {R : β → δ → Prop} {S : γ → δ → Prop} {f : α → β → γ}
    {as : List α} {bs : List β} {xs : List δ} (each : List.Forall₂ R bs xs)
    (enough : bs.length ≤ as.length) (gives : ∀ a b x, R b x → S (f a b) x) :
    List.Forall₂ S (List.zipWith f as bs) xs := by
  rw [List.zipWith_comm]
  exact forall₂_zipWith_left each enough fun b a x holds => gives a b x holds

omit fine in
/-- Declarations keep their signatures. -/
theorem signature_declarations (n : Nat) (ss : List Signature) :
    ((declarations 0 ss).zipIdx n).map (·.1.signature) = ss := by
  have parts : (fun f : DeclaredFunc × Nat => f.1.signature) = DeclaredFunc.signature ∘ Prod.fst := rfl
  rw [parts, ← List.map_map, List.zipIdx_map_fst, declarations, List.map_map]
  exact List.zipIdx_map_fst 0 ss

variable (code : (codeOf es).length = (signaturesOf es).length)
include code

theorem spells_signatures : List.Forall₂ (fun f x => ∃ t,
    Encode.typeIndex f.signature (typeTable (typesOf es)) = .ok (t, typeTable (typesOf es)) ∧
      Encode.u32 t = x.bytes (typesOf es))
    (Encode.Fields.ofModule (moduleOf metadata es)).funcs (ofSection .function es) := by
  have listed : List.Forall₂ (fun s x => x = .func s ∧ Known (typesOf es) s)
      (signaturesOf es) (ofSection .function es) := by
    refine forall₂_filterMap (fun x inside home => ?_) (fun x other => ?_)
    · have fine := fine x inside
      cases x with
      | func s => exact ⟨s, rfl, rfl, fine⟩
      | _ => cases home
    · cases x with
      | func => exact absurd rfl other
      | _ => rfl
  rw [← signature_declarations (importedFuncs es) (signaturesOf es)] at listed
  show List.Forall₂ _ ((moduleOf metadata es).fields.filterMap _) _
  rw [funcs_moduleOf]
  refine forall₂_zipWith_left (List.forall₂_map_left_iff.1 listed) ?_ fun f c x ⟨same, known⟩ => ?_
  · rw [List.length_zipIdx, length_declarations, code]
  · obtain ⟨⟨s, inline, type⟩, -, -⟩ := (shaped_define metadata f c).1
    subst same
    rw [inline]
    exact ⟨_, typeIndex_of_known known type, rfl⟩

theorem spells_bodies : List.Forall₂ (fun f x => ∃ b,
    Encode.body f (typeTable (typesOf es)) = .ok (b, typeTable (typesOf es)) ∧
      Write.byteVector b = x.bytes (typesOf es))
    (Encode.Fields.ofModule (moduleOf metadata es)).funcs (ofSection .code es) := by
  have listed : List.Forall₂ (fun c x => x = .code c ∧ IsExpression (typesOf es) c.body)
      (codeOf es) (ofSection .code es) := by
    refine forall₂_filterMap (fun x inside home => ?_) (fun x other => ?_)
    · have fine := fine x inside
      cases x with
      | code c => exact ⟨c, rfl, rfl, fine.2.2.1⟩
      | _ => cases home
    · cases x with
      | code => exact absurd rfl other
      | _ => rfl
  show List.Forall₂ _ ((moduleOf metadata es).fields.filterMap _) _
  rw [funcs_moduleOf]
  refine forall₂_zipWith_right listed ?_ fun f c x ⟨same, holds⟩ => ?_
  · rw [List.length_zipIdx, length_declarations, code]
  · subst same
    exact ⟨_, body_of_shaped (shaped_define metadata f c).1 holds, rfl⟩

/-- The module of entries that can be written is written as them. -/
theorem spells_moduleOf (single : (ofSection .start es).length ≤ 1) :
    Encode.Spells (typeTable (typesOf es)) (.ofModule (moduleOf metadata es)) es where
  types := by
    have listed : List.Forall₂ (fun s x => Encode.funcType s.funcType = x.bytes (typesOf es))
        (typesOf es) (ofSection .type es) := by
      refine forall₂_filterMap (fun x inside home => ?_) (fun x other => ?_)
      · cases x with
        | type s => exact ⟨s, rfl, rfl⟩
        | _ => cases home
      · cases x with
        | type => exact absurd rfl other
        | _ => rfl
    rw [typeTable, List.map_map]
    exact map_eq_of_forall₂ listed
  imports := spells_imports metadata fine
  signatures := spells_signatures metadata fine code
  bodies := spells_bodies metadata fine code
  tables := map_eq_of_forall₂ (spells_tables metadata)
  memories := map_eq_of_forall₂ (spells_memories metadata)
  globals := spells_globals metadata fine
  exports := spells_exports metadata fine
  starts := spells_starts metadata fine
  single := by rwa [(spells_starts metadata fine).length_eq]
  elements := by
    refine ⟨((Encode.Fields.ofModule (moduleOf metadata es)).tables.zipIdx
      (Encode.Fields.ofModule (moduleOf metadata es)).importedTables).map fun _ => none,
      ofSection .element es, ?_, ?_, spells_elems metadata fine⟩
    · rw [List.filterMap_map]
      exact (congrArg (· ++ _) (List.filterMap_eq_nil_iff.2 fun _ _ => rfl)).symm
    · refine List.forall₂_map_right_iff.2 (List.forall₂_same.2 fun t inside => ?_)
      rw [Encode.inlineElements,
        elements_moduleOf metadata _ (List.fst_mem_of_mem_zipIdx inside)]
      rfl
  data := spells_data metadata fine

omit fine code in
/-- The types of a decoded module are those of the type section, without names. -/
theorem types_moduleOf : (Encode.Fields.ofModule (moduleOf metadata es)).types =
    (typesOf es).map fun s => ⟨none, s⟩ := by
  show (moduleOf metadata es).fields.filterMap _ = _
  rw [filterMap_moduleOf metadata es (fun _ => rfl) fun _ => rfl, typesOf, List.map_filterMap,
    ← numbered_const (Entry.hasKind .table) _ 0]
  congr 1
  funext k x
  cases x <;> rfl

omit fine code in
/-- The imported functions of a decoded module are those of the import section. -/
theorem importedFuncs_moduleOf :
    (Encode.Fields.ofModule (moduleOf metadata es)).importedFuncs = importedFuncs es := by
  show (((moduleOf metadata es).fields.filterMap _).filter _).length = _
  rw [filterMap_moduleOf metadata es (fun _ => rfl) fun _ => rfl, ← List.countP_eq_length_filter]
  refine countP_numbered (fun k x => ?_) 0 es
  cases x with
  | imported module name what => cases what <;> rfl
  | _ => rfl

/-- A decoded module is written as its entries and the names of its functions. -/
theorem encode_moduleOf (single : (ofSection .start es).length ≤ 1) :
    encode (moduleOf metadata es) =
      .ok (moduleBytes es (Encode.functionNames (.ofModule (moduleOf metadata es)))) := by
  have table : (⟨(Encode.Fields.ofModule (moduleOf metadata es)).types.map (·.functype.funcType),
      (Encode.Fields.ofModule (moduleOf metadata es)).types.length⟩ : TypeTable) =
        typeTable (typesOf es) := by
    rw [types_moduleOf, List.map_map, List.length_map]
    rfl
  have written := Encode.module_eq_of_spells (spells_moduleOf metadata fine code single)
  show (do
    let r ← (Encode.module (.ofModule (moduleOf metadata es))).run _
    return r.1 : Except EncodeError (List UInt8)) = _
  rw [table, StateT.run, written]
  rfl

end ModuleOf

end WasmEngine.Binary
