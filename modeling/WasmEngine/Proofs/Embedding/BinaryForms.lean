import WasmEngine.Proofs.Embedding.Instantiable
import WasmEngine.Proofs.Embedding.TextRoundTrip
import WasmEngine.Proofs.Typing.AlikeModules

/-!
# Binary forms are compiled again

What is decoded of a written module says the same as the module.  It has neither names in the place of numbers nor
references in the place of signatures, so that resolving it changes nothing, and it is valid if the module is
(`Engine.restates_of_encode`).
-/

namespace WasmEngine

open Node Outcome Typing Binary Binary.Encode

/-! ## Instructions without names -/

theorem Outcome.mapM_fixed {ε α : Type} {f : α → Except ε α} {as : List α} (each : ∀ a ∈ as, f a = .ok a) :
    as.mapM f = .ok as := by
  have mapped := mapM_map_fixed (g := id) each
  rwa [List.map_id] at mapped

namespace Node

/-- Resolving a module leaves an instruction as it is. -/
structure Settled (node : Node) : Prop where
  inline : ∀ types, TypeReference.inline types node = .ok node
  instr : ∀ s : Scope, s.instr node = .ok node

/-- Code that is settled has its types in place. -/
theorem inlineAll_of_settled {nodes : List Node} (settled : ∀ node ∈ nodes, node.Settled)
    (types : List TypeDef) : TypeReference.inlineAll types nodes = .ok nodes := by
  rw [inlineAll_eq_mapM]
  exact mapM_fixed fun node inside => (settled node inside).inline types

/-- Code that is settled has its names resolved. -/
theorem body_of_settled {nodes : List Node} (settled : ∀ node ∈ nodes, node.Settled) (s : Scope) :
    s.body nodes = .ok nodes := by
  rw [body_eq_mapM]
  exact mapM_fixed fun node inside => (settled node inside).instr s

/-- A number that stands for an immediate. -/
inductive IsLiteral : Node → Prop
  | number (n : NumberLiteral) : IsLiteral (.number n)
  | longNumber (n : LongNumberLiteral) : IsLiteral (.longNumber n)
  | float (x : FloatLiteral) : IsLiteral (.float x)

/-- A literal is resolved as it is. -/
theorem IsLiteral.arg {node : Node} (literal : node.IsLiteral) (s : Scope) (space : Space) :
    s.arg space node = .ok node := by
  cases literal <;> rfl

/-- An instruction with numbers for its immediate is left as it is. -/
theorem settled_instr {args : List Node} (literals : ∀ a ∈ args, a.IsLiteral) (name : String)
    (object : Option Valtype) (memArg : Option MemArg) : Settled (.instr name object args memArg) where
  inline types := by
    have kept : TypeReference.inlineAll types args = .ok args := by
      rw [inlineAll_eq_mapM]
      refine mapM_fixed fun a inside => ?_
      cases literals a inside <;> rfl
    rw [TypeReference.inline, kept]
    rfl
  instr s := by
    have first (space : Space) : s.firstArg space args = .ok args := by
      cases args with
      | nil => rfl
      | cons a args =>
        rw [Scope.firstArg, (literals a List.mem_cons_self).arg]
        rfl
    have kept : s.args name args = .ok args := by
      unfold Scope.args
      split
      · exact first _
      · exact first _
      · exact first _
      · exact first _
      · exact first _
      · exact mapM_fixed fun a inside => (literals a inside).arg s _
      · exact mapM_fixed fun a inside => (literals a inside).arg s _
      · exact mapM_fixed fun a inside => (literals a inside).arg s _
      · rfl
    rw [Scope.instr, kept]
    rfl

/-- The operands of a plain instruction are respelled as literals. -/
theorem literals_of_operands {what : Immediate} {args : List Node} {memArg : Option MemArg}
    (operands : Operands Index.IsPosition what args memArg) : ∀ a ∈ respelledIn args, a.IsLiteral := by
  have index {i : Index} (position : i.IsPosition) : (ofIndex i).respelled.IsLiteral := by
    obtain ⟨n, rfl⟩ := position.isNumber
    exact .number _
  rw [respelledIn_eq_map, List.forall_mem_map]
  cases operands with
  | none | memoryReserved | memArg => exact List.forall_mem_nil _
  | index holds => exact List.forall_mem_singleton.2 (index holds)
  | brTable _ all => exact List.forall_mem_map.2 fun i inside => index (all i inside)
  | i32 => exact List.forall_mem_singleton.2 (.number _)
  | i64 => exact List.forall_mem_singleton.2 (.longNumber _)
  | f32 | f64 => exact List.forall_mem_singleton.2 (.float _)

variable {depth : Nat}

/-- Code that is like settled code is settled, if each of its instructions is. -/
theorem settled_of_each {nodes nodes' : List Node}
    (each : ∀ node ∈ nodes, ∀ node', node.Alike node' → node'.Settled) (alike : AlikeIn nodes nodes') :
    ∀ node' ∈ nodes', node'.Settled := fun node' inside => by
  obtain ⟨node, listed, same⟩ := exists_of_forall₂ (alikeIn_iff.1 alike) inside
  exact each node listed node' same

/-- What does the same as an instruction with a binary form is left as it is. -/
theorem settled_of_alike {node : Node} (encodable : Encodable Index.IsPosition SignatureRef.IsInline depth node)
    {node' : Node} (alike : node.Alike node') : node'.Settled := by
  induction encodable generalizing node' with
  | instr _ _ _ _ operands =>
    cases alike
    exact settled_instr (literals_of_operands operands) _ _ _
  | block _ _ ih =>
    cases alike with
    | block inside =>
      have body := settled_of_each ih inside
      refine ⟨fun types => ?_, fun s => ?_⟩
      · rw [TypeReference.inline, inlineAll_of_settled body]
        rfl
      · rw [Scope.instr, body_of_settled body]
        rfl
  | loop _ _ ih =>
    cases alike with
    | loop inside =>
      have body := settled_of_each ih inside
      refine ⟨fun types => ?_, fun s => ?_⟩
      · rw [TypeReference.inline, inlineAll_of_settled body]
        rfl
      · rw [Scope.instr, body_of_settled body]
        rfl
  | ifElse _ _ _ ihTrue ihFalse =>
    cases alike with
    | ifElse whenTrue whenFalse =>
      have consequent := settled_of_each ihTrue whenTrue
      have alternate := settled_of_each ihFalse whenFalse
      refine ⟨fun types => ?_, fun s => ?_⟩
      · rw [TypeReference.inline, inlineAll_of_settled consequent, inlineAll_of_settled alternate]
        rfl
      · rw [Scope.instr, body_of_settled consequent, body_of_settled alternate]
        rfl
  | call holds =>
    obtain ⟨n, rfl⟩ := holds.isNumber
    cases alike
    exact ⟨fun _ => rfl, fun _ => rfl⟩
  | callIndirect =>
    cases alike
    exact ⟨fun _ => rfl, fun _ => rfl⟩

/-- Code that is like code that can be encoded is settled. -/
theorem settled_of_alikeIn {nodes nodes' : List Node}
    (encodable : ∀ node ∈ nodes, Encodable Index.IsPosition SignatureRef.IsInline depth node)
    (alike : AlikeIn nodes nodes') : ∀ node' ∈ nodes', node'.Settled :=
  settled_of_each (fun node inside _ => settled_of_alike (encodable node inside)) alike

end Node

/-! ## Fields without names -/

namespace Node

/-- A field that is decoded from an entry of a section. -/
def isDecoded : Node → Bool
  | .typeDef _ | .moduleImport _ | .func .. | .table _ | .memory _ | .global .. | .moduleExport _ | .start _
  | .elem .. | .data .. => true
  | _ => false

/-- Resolving a module leaves a field as it is. -/
structure SettledField (field : Node) : Prop where
  inline : ∀ types, TypeReference.inline types field = .ok field
  field : ∀ s : Scope, s.field field = .ok field

end Node

/-- A position is resolved as it is. -/
theorem Index.resolves {i : Index} (position : i.IsPosition) (s : Scope) (space : Space) :
    s.index space i.respelled = .ok i.respelled := by
  obtain ⟨n, rfl⟩ := position.isNumber
  rfl

theorem Index.resolve_all {is : List Index} (positions : ∀ i ∈ is, i.IsPosition) (s : Scope) (space : Space) :
    s.indices space (is.map Index.respelled) = .ok (is.map Index.respelled) :=
  mapM_map_fixed fun i inside => resolves (positions i inside) s space

namespace Module

variable {m m' : Module} (restates : m.Restates m') (encodable : (Fields.ofModule m).Encodable Index.IsPosition)
  (few : (Fields.ofModule m).importedTables + (Fields.ofModule m).tables.length < UInt32.size)
include restates encodable few

/-- A decoded field that restates one of a module is settled. -/
theorem settledField_of_restates {field : Node} (inside : field ∈ m'.fields) (decoded : field.isDecoded = true) :
    field.SettledField := by
  cases field with
  | typeDef | memory => exact ⟨fun _ => rfl, fun _ => rfl⟩
  | moduleImport decl' =>
    obtain ⟨decl, -, reads⟩ := exists_of_forall₂ restates.imports (List.mem_filterMap.2 ⟨_, inside, rfl⟩)
    obtain ⟨module, name, descr, id⟩ := decl'
    refine ⟨fun types => ?_, fun s => rfl⟩
    have alike := reads.alike
    generalize decl.descr = given at alike
    cases alike with
    | @func d d' signature =>
      obtain ⟨id', sig⟩ := d'
      obtain ⟨-, s, -, rfl, -⟩ := signature
      rfl
    | _ => rfl
  | func name sig locals body metadata =>
    obtain ⟨g, listed, alike⟩ := exists_of_forall₂ restates.funcs (List.mem_filterMap.2 ⟨_, inside, rfl⟩)
    obtain ⟨-, s, -, rfl, -⟩ := alike.signature
    have settled := settled_of_alikeIn (encodable.bodies g listed) alike.body
    refine ⟨fun types => ?_, fun scope => ?_⟩
    · rw [TypeReference.inline, inlineAll_of_settled settled]
      rfl
    · rw [Scope.field, body_of_settled settled]
      rfl
  | table t =>
    have none := restates.unfilled t (List.mem_filterMap.2 ⟨_, inside, rfl⟩)
    refine ⟨fun _ => rfl, fun s => ?_⟩
    obtain ⟨elemType, limits, name, elements⟩ := t
    obtain rfl : elements = [] := none
    rfl
  | global type init name =>
    obtain ⟨g, listed, -, alike⟩ := exists_of_forall₂ restates.globals (List.mem_filterMap.2 ⟨_, inside, rfl⟩)
    have settled := settled_of_alikeIn (encodable.inits g listed).1 alike
    refine ⟨fun types => ?_, fun scope => ?_⟩
    · rw [TypeReference.inline, inlineAll_of_settled settled]
      rfl
    · rw [Scope.field, body_of_settled settled]
      rfl
  | moduleExport e =>
    have listed : e ∈ (Fields.ofModule m').exports := List.mem_filterMap.2 ⟨_, inside, rfl⟩
    rw [restates.exports] at listed
    obtain ⟨e, given, rfl⟩ := List.mem_map.1 listed
    refine ⟨fun _ => rfl, fun s => ?_⟩
    rw [Scope.field, respelledExport, Index.resolves (encodable.exports e given)]
    rfl
  | start i =>
    have listed : i ∈ (Fields.ofModule m').starts := List.mem_filterMap.2 ⟨_, inside, rfl⟩
    rw [restates.starts] at listed
    obtain ⟨i, given, rfl⟩ := List.mem_map.1 listed
    refine ⟨fun _ => rfl, fun s => ?_⟩
    rw [Scope.field, Index.resolves (encodable.starts i given)]
    rfl
  | elem target offset funcs =>
    obtain ⟨e, listed, alike⟩ := exists_of_forall₂ restates.elems (List.mem_filterMap.2 ⟨_, inside, rfl⟩)
    obtain ⟨position, code, positions⟩ := encodable_of_segment encodable few listed
    have settled := settled_of_alikeIn code.1 alike.offset
    obtain ⟨rfl, -, rfl⟩ := alike
    refine ⟨fun types => ?_, fun scope => ?_⟩
    · rw [TypeReference.inline, inlineAll_of_settled settled]
      rfl
    · rw [Scope.field, Index.resolves position, body_of_settled settled, Index.resolve_all positions]
      rfl
  | data target offset init =>
    obtain ⟨d, listed, alike⟩ := exists_of_forall₂ restates.data (List.mem_filterMap.2 ⟨_, inside, rfl⟩)
    obtain ⟨position, code⟩ := encodable.data d listed
    have settled := settled_of_alikeIn code.1 alike.offset
    obtain ⟨rfl, -, rfl⟩ := alike
    refine ⟨fun types => ?_, fun scope => ?_⟩
    · rw [TypeReference.inline, inlineAll_of_settled settled]
      rfl
    · rw [Scope.field, Index.resolves position, body_of_settled settled]
      rfl
  | _ => cases decoded

/-- A module of decoded fields that says the same as one with a binary form is left as it is. -/
theorem resolve_of_restates (decoded : ∀ field ∈ m'.fields, field.isDecoded = true) : m'.resolve = .ok m' := by
  have settled (field : Node) (inside : field ∈ m'.fields) : field.SettledField :=
    settledField_of_restates restates encodable few inside (decoded field inside)
  have inlined (types : List TypeDef) (fields : List Node) (each : ∀ field ∈ fields, field.SettledField) :
      TypeReference.inlineAll types fields = .ok fields := by
    induction fields with
    | nil => rfl
    | cons field fields ih =>
      obtain ⟨first, others⟩ := List.forall_mem_cons.1 each
      rw [TypeReference.inlineAll, first.inline, ih others]
      rfl
  rw [resolve, inlineTypes, inlined _ _ settled]
  show m'.resolveNames = .ok m'
  rw [resolveNames, mapM_fixed fun field inside => (settled field inside).field _]
  rfl

end Module

/-! ## Decoded modules -/

/-- One relation of lists may be replaced by another that holds of the elements. -/
theorem forall₂_imp_of_mem {α β : Type} {R S : α → β → Prop} {as : List α} {bs : List β}
    (each : List.Forall₂ R as bs) (imp : ∀ a ∈ as, ∀ b, R a b → S a b) : List.Forall₂ S as bs := by
  induction each with
  | nil => exact .nil
  | cons first _ ih =>
    obtain ⟨here, others⟩ := List.forall_mem_cons.1 imp
    exact .cons (here _ first) (ih others)

/-- If no import comes after a definition, then no import is late. -/
theorem Typing.lateImports_eq_nil {defined : Bool} {fields : List Node}
    (before : defined = true → ∀ decl, .moduleImport decl ∉ fields)
    (sorted : fields.Pairwise fun x y => isDefinition x = true → ∀ decl, y ≠ .moduleImport decl) :
    lateImports defined fields = [] := by
  induction sorted generalizing defined with
  | nil => cases defined <;> rfl
  | @cons field fields after _ ih =>
    have rest : (defined || isDefinition field) = true → ∀ decl, .moduleImport decl ∉ fields := by
      intro stands decl inside
      obtain already | here := Bool.or_eq_true_iff.1 stands
      · exact before already decl (List.mem_cons_of_mem _ inside)
      · exact after _ inside here decl rfl
    cases field with
    | moduleImport decl =>
      cases defined with
      | true => exact absurd List.mem_cons_self (before rfl decl)
      | false => exact ih fun stands => absurd stands Bool.false_ne_true
    | _ => exact ih rest

namespace Binary

variable {metadata : ModuleMetadata} {es ys : List Entry}

/-- Numbering keeps what is true of entries in their order. -/
theorem pairwise_numbered {β : Type} {counts : Entry → Bool} {f : Nat → Entry → Option β}
    {R : Entry → Entry → Prop} {S : β → β → Prop} (sorted : es.Pairwise R)
    (keeps : ∀ k l x y b c, R x y → f k x = some b → f l y = some c → S b c) (k : Nat) :
    (numbered counts f k es).Pairwise S := by
  induction sorted generalizing k with
  | nil => exact .nil
  | @cons x es after _ ih =>
    rw [numbered]
    refine List.pairwise_append.2 ⟨?_, ih _, fun b given c later => ?_⟩
    · cases f k x with
      | none => exact .nil
      | some b => exact List.pairwise_singleton _ _
    · obtain ⟨l, y, inside, given'⟩ := mem_numbered later
      exact keeps k l x y b c (after y inside) (Option.mem_toList.1 given) given'

/-- The fields of a decoded module are fields that decoding makes. -/
theorem isDecoded_of_moduleOf {field : Node} (inside : field ∈ (moduleOf metadata ys).fields) :
    field.isDecoded = true := by
  obtain inside | inside := List.mem_append.1 inside
  · obtain inside | inside := List.mem_append.1 inside
    · obtain ⟨k, x, -, given⟩ := mem_numbered inside
      cases x <;> cases given <;> rfl
    · obtain ⟨g, -, rfl⟩ := List.mem_map.1 inside
      rfl
  · obtain ⟨x, -, given⟩ := List.mem_filterMap.1 inside
    cases x <;> cases given
    rfl

/-- The imports of a decoded module come before its definitions. -/
theorem lateImports_moduleOf (grouped : bySection ys = ys) :
    lateImports false (moduleOf metadata ys).fields = [] := by
  have sorted : (fieldsOf ys).Pairwise fun x y => isDefinition x = true → ∀ decl, y ≠ .moduleImport decl := by
    refine pairwise_numbered (grouped ▸ pairwise_bySection ys)
      (fun k l x y b c le given given' defines decl => ?_) 0
    rintro rfl
    cases y <;> cases given'
    cases x <;> cases given <;> first
      | exact Bool.noConfusion defines
      | exact absurd le (by simp [SectionId.toNat])
  have noImport {field : Node} (inside : field ∈ (definitions metadata ys).map Func.toNode ∨
      field ∈ ys.filterMap Entry.export?) (decl : ModuleImport) : field ≠ .moduleImport decl := by
    rintro rfl
    obtain inside | inside := inside
    · obtain ⟨g, -, same⟩ := List.mem_map.1 inside
      cases same
    · obtain ⟨x, -, given⟩ := List.mem_filterMap.1 inside
      cases x <;> cases given
  have others : ((definitions metadata ys).map Func.toNode ++ ys.filterMap Entry.export?).Pairwise fun x y =>
      isDefinition x = true → ∀ decl, y ≠ .moduleImport decl :=
    List.pairwise_of_forall_mem_list fun _ _ y inside _ => noImport (List.mem_append.1 inside)
  refine lateImports_eq_nil (fun stands => absurd stands Bool.false_ne_true) ?_
  rw [moduleOf, List.append_assoc]
  exact List.pairwise_append.2 ⟨sorted, others, fun _ _ y inside _ => noImport (List.mem_append.1 inside)⟩

/-- Definitions that are read back are like those that were written. -/
theorem alike_defined (metadata : ModuleMetadata) {funcs : List Func} {cs : List CodeEntry} {i j : Nat}
    (codes : List.Forall₂ (fun g c => c.locals = g.locals.map Param.valtype ∧ CodeReads g.body c.body) funcs cs)
    (inline : ∀ g ∈ funcs, g.signature.IsInline)
    (bodies : ∀ g ∈ funcs, EncodableIn Index.IsPosition SignatureRef.IsInline g.body) :
    List.Forall₂ Func.Alike funcs (List.zipWith (define metadata)
      ((declarations j (funcs.map (·.signature.signature))).zipIdx i) cs) := by
  induction codes generalizing i j with
  | nil => exact .nil
  | @cons g c funcs cs first _ ih =>
    obtain ⟨here, others⟩ := List.forall_mem_cons.1 inline
    obtain ⟨code, later⟩ := List.forall_mem_cons.1 bodies
    obtain ⟨signature, locals, body⟩ :=
      reads_define metadata (.synthesized ("func_" ++ toString j)) i here first.1 first.2
    exact .cons ⟨signature, locals, alikeIn_of_codeReads code body⟩ (ih others later)

/-- What is decoded of a written module says the same as the module. -/
theorem restates_moduleOf (metadata : ModuleMetadata) {m : Module} {T : List Signature} (listed : (Fields.ofModule m).Listed T)
    (grouped : bySection ys = ys)
    (same : ys.map Entry.plain = ((Fields.ofModule m).entries T).map Entry.plain) :
    m.Restates (moduleOf metadata ys) where
  imports := reads_imports metadata same listed.encodable
  funcs := by
    have alike := alike_defined metadata (i := importedFuncs ys) (j := 0) (codeOf_entries same)
      listed.encodable.signatures listed.encodable.bodies
    rw [← signaturesOf_entries same] at alike
    show List.Forall₂ _ _ ((moduleOf metadata ys).fields.filterMap _)
    rwa [funcs_moduleOf, definitions]
  tables := (reads_tables metadata same).imp fun _ _ reads => reads.1
  memories := reads_memories metadata same
  globals := forall₂_imp_of_mem (reads_globals metadata same) fun g inside _ reads =>
    ⟨reads.1, alikeIn_of_codeReads (listed.encodable.inits g inside).1 reads.2⟩
  exports := reads_exports metadata same listed.encodable.exports
  starts := reads_starts metadata same listed.encodable.starts
  elems := forall₂_imp_of_mem (reads_elems metadata same listed.encodable listed.fewTables) fun e inside _ reads =>
    ⟨reads.target,
      alikeIn_of_codeReads (encodable_of_segment listed.encodable listed.fewTables inside).2.1.1 reads.offset,
      reads.funcs⟩
  data := forall₂_imp_of_mem (reads_data metadata same listed.encodable) fun d inside _ reads =>
    ⟨reads.target, alikeIn_of_codeReads (listed.encodable.data d inside).2.1 reads.offset, reads.init⟩
  unfilled t inside := by
    obtain ⟨_, -, reads⟩ := exists_of_forall₂ (reads_tables metadata same) inside
    exact reads.2
  inOrder := lateImports_moduleOf grouped

end Binary

/-- A program of one valid module that resolving leaves as it is. -/
theorem Engine.compileProgram_of_resolve {m : Module} (resolved : m.resolve = .ok m) (valid : m.validate = .ok ()) :
    Engine.compileProgram ⟨[m.toNode]⟩ = .ok m := by
  have modules : Program.mapModules Module.resolve [m.toNode] = .ok [m.toNode] := by
    simp only [Program.mapModules, Program.module?_toNode, resolved]
  have valid : Program.validate ⟨[m.toNode]⟩ = .ok () := by
    simp only [Program.validate, Program.validateAll, Program.module?_toNode, valid]
    rfl
  have compiled : Program.compile ⟨[m.toNode]⟩ = .ok ⟨[m.toNode]⟩ := by
    rw [Program.compile, Program.resolve, modules]
    show (do Program.validate ⟨[m.toNode]⟩; return (⟨[m.toNode]⟩ : Program)) = _
    rw [valid]
    rfl
  rw [Engine.compileProgram, compiled]
  rfl

namespace Engine

/-- A module from a text is one that was resolved and checked. -/
theorem source_of_compileSource {source : String} {m : Module} (accepted : compileSource source = .ok m) :
    ∃ n : Module, n.resolve = .ok m ∧ m.validate = .ok () := by
  obtain ⟨p, -, compiled⟩ := bind_eq_ok_iff.1 accepted
  obtain ⟨-, -, n, -, resolved, valid⟩ := source_of_compileProgram compiled
  exact ⟨n, resolved, valid⟩

/-- A module of a text that has an instance is written as sections.  Where it has few locals and single instructions
as the offsets of data, and its sections are short enough, the bytes are compiled to a module that says the same. -/
theorem restates_of_encode {source : String} {m : Module} (accepted : compileSource source = .ok m)
    (instantiable : m.Instantiable)
    (locals : ∀ f : Func, f.toNode ∈ m.fields → f.locals.length ≤ Decode.maxLocals ∧ f.localCount < UInt32.size)
    (offsets : ∀ target offset init, .data target offset init ∈ m.fields → offset.length = 1) :
    ∃ sections : List (UInt8 × List UInt8),
      encode m = .ok (Write.preamble ++ sections.flatMap fun s => Write.sectionOf s.1 s.2) ∧
      ((∀ s ∈ sections, s.2.length < UInt32.size) → (∀ kind, m.countOf kind < UInt32.size) ∧
        ∀ config : Config, config.decoder.Complete →
          ∃ m', compile config (Write.preamble ++ sections.flatMap fun s => Write.sectionOf s.1 s.2) = .ok m' ∧
            m.Restates m') := by
  obtain ⟨-, -, valid⟩ := source_of_compileSource accepted
  have plain : ∀ field ∈ m.fields, ∀ offset, field.offset? = some offset → ∀ node ∈ offset, node.IsPlain := by
    intro field member offset given
    cases field <;> cases given
    · exact instantiable.elems _ _ _ member
    · exact instantiable.data _ _ _ member
  obtain ⟨T, -, single, written, lists⟩ := exists_listed accepted plain locals offsets instantiable.exports
  rw [moduleBytes_eq] at written
  refine ⟨_, written, fun short => ?_⟩
  obtain ⟨few, listed, exported⟩ := lists short
  refine ⟨few, fun config complete => ?_⟩
  obtain ⟨metadata, ys, decodes, same, -⟩ := entries_of_listed complete listed short exported single
  have grouped := grouped_congr same (Encode.grouped_entries (f := .ofModule m) (T := T))
  have restates := restates_moduleOf metadata listed grouped same
  have resolved' := Module.resolve_of_restates restates listed.encodable listed.fewTables
    fun _ inside => isDecoded_of_moduleOf inside
  refine ⟨moduleOf metadata ys, ?_, restates⟩
  rw [← moduleBytes_eq, compile, decode, decodes]
  exact compileProgram_of_resolve resolved' (Module.validate_of_restates restates valid)

end Engine

end WasmEngine
