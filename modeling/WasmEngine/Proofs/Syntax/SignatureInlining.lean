import WasmEngine.Proofs.Syntax.NameResolution

/-!
# What type references denote

A type reference is held by a function, a function import or an indirect call, wherever in a module it stands.  It
denotes the type definition of its number, among all definitions of the module in the order of the source, or the
first definition of its name.  Inlining succeeds just if every reference denotes a definition; it then puts copies
of the signatures in place of the references and changes nothing else (`Module.inlineTypes_exact`).
-/

namespace WasmEngine

open Outcome

/-! ## The nodes of a module -/

namespace Node

mutual

/-- The nodes at or below a node that can hold type references or definitions, in the order of the source. -/
def nodes : Node → List Node
  | .program body => .program body :: nodesIn body
  | .module id fields metadata => .module id fields metadata :: nodesIn fields
  | .func name sig locals body metadata => .func name sig locals body metadata :: nodesIn body
  | .instr name object args memArg => .instr name object args memArg :: nodesIn args
  | .block label body result => .block label body result :: nodesIn body
  | .loop label result body => .loop label result body :: nodesIn body
  | .ifElse label result consequent alternate =>
    .ifElse label result consequent alternate :: (nodesIn consequent ++ nodesIn alternate)
  | .global type init name => .global type init name :: nodesIn init
  | .elem target offset funcs => .elem target offset funcs :: nodesIn offset
  | .data target offset values => .data target offset values :: nodesIn offset
  | .moduleImport ⟨exporter, name, .func d, id⟩ => [.moduleImport ⟨exporter, name, .func d, id⟩, .funcImport d]
  | node => [node]

/-- The nodes at or below the nodes of a list. -/
def nodesIn : List Node → List Node
  | [] => []
  | node :: rest => node.nodes ++ nodesIn rest

end

/-- The definition at a node. -/
def typeDef? : Node → Option TypeDef
  | .typeDef t => some t
  | _ => none

/-- The signature that a node holds, in place or by reference. -/
def signature? : Node → Option SignatureRef
  | .func _ sig _ _ _ => some sig
  | .callIndirect sig => some sig
  | .funcImport d => some d.signature
  | _ => none

end Node

/-- The nodes of a module. -/
def Module.nodes (m : Module) : List Node := Node.nodesIn m.fields

/-- The type definitions of a module. -/
def Module.types (m : Module) : List TypeDef := m.nodes.filterMap Node.typeDef?

/-- A type reference stands in a module. -/
def Module.Refers (m : Module) (index : Index) : Prop := ∃ node ∈ m.nodes, node.signature? = some (.ref index)

/-- A reference denotes a definition, if its number is read in some way. -/
def DenotesAs (read : Int → Int) (types : List TypeDef) : Index → TypeDef → Prop
  | .number n, t => ∃ k : Nat, read n.value = k ∧ types[k]? = some t
  | .identifier id, t =>
    ∃ k, FirstAt (types.map fun t => t.id.map Identifier.value) (some id.value) k ∧ types[k]? = some t

/-- A reference denotes a definition: the one of its number modulo `2 ^ 32`, or the first one of its name. -/
abbrev Denotes : List TypeDef → Index → TypeDef → Prop := DenotesAs (· % UInt32.size)

/-! ## Signatures in place of references -/

/-- The signature in place of the reference. -/
def SignatureRef.inlined (signature : Index → Signature) : SignatureRef → SignatureRef
  | .inline s => .inline s
  | .ref index => .inline (signature index)

namespace Node

mutual

/-- The node with signatures in place of the references at or below it. -/
def inlined (signature : Index → Signature) : Node → Node
  | .program body => .program (allInlined signature body)
  | .module id fields metadata => .module id (allInlined signature fields) metadata
  | .func name sig locals body metadata =>
    .func name (sig.inlined signature) locals (allInlined signature body) metadata
  | .instr name object args memArg => .instr name object (allInlined signature args) memArg
  | .block label body result => .block label (allInlined signature body) result
  | .loop label result body => .loop label result (allInlined signature body)
  | .ifElse label result consequent alternate =>
    .ifElse label result (allInlined signature consequent) (allInlined signature alternate)
  | .callIndirect sig => .callIndirect (sig.inlined signature)
  | .global type init name => .global type (allInlined signature init) name
  | .elem target offset funcs => .elem target (allInlined signature offset) funcs
  | .data target offset values => .data target (allInlined signature offset) values
  | .funcImport d => .funcImport { d with signature := d.signature.inlined signature }
  | .moduleImport ⟨exporter, name, .func d, id⟩ =>
    .moduleImport ⟨exporter, name, .func { d with signature := d.signature.inlined signature }, id⟩
  | node => node

/-- The nodes of a list with signatures in place of the references at or below them. -/
def allInlined (signature : Index → Signature) : List Node → List Node
  | [] => []
  | node :: nodes => inlined signature node :: allInlined signature nodes

end

end Node

/-- The module with signatures in place of the references. -/
def Module.inlined (signature : Index → Signature) (m : Module) : Module :=
  { m with fields := Node.allInlined signature m.fields }

/-! ## Inlining -/

namespace TypeReference

open Node

mutual

/-- The types are collected in the order of the nodes that define them. -/
theorem collect_eq : ∀ node : Node, collect node = node.nodes.filterMap typeDef?
  | .program body => collectAll_eq body
  | .module _ fields _ => collectAll_eq fields
  | .func _ _ _ body _ => collectAll_eq body
  | .instr _ _ args _ => collectAll_eq args
  | .block _ body _ => collectAll_eq body
  | .loop _ _ body => collectAll_eq body
  | .ifElse _ _ consequent alternate => by
    rw [collect, nodes, collectAll_eq consequent, collectAll_eq alternate, ← List.filterMap_append]
    rfl
  | .global _ init _ => collectAll_eq init
  | .elem _ offset _ => collectAll_eq offset
  | .data _ offset _ => collectAll_eq offset
  | .typeDef _ => rfl
  | .moduleImport ⟨_, _, descr, _⟩ => by cases descr <;> rfl
  | .callIndirect _ | .funcImport _ | .moduleMetadata _ | .moduleName _ | .functionName _ | .localName _
  | .sectionMetadata _ | .signature _ | .call _ | .number _ | .longNumber _ | .float _ | .valtype _
  | .identifier _ | .globalType _ | .table _ | .memory _ | .limits _ | .exportDescr _ | .moduleExport _
  | .start _ | .bytes _ => rfl

theorem collectAll_eq : ∀ nodes : List Node, collectAll nodes = (nodesIn nodes).filterMap typeDef?
  | [] => rfl
  | node :: nodes => by
    rw [collectAll, nodesIn, List.filterMap_append, collect_eq node, collectAll_eq nodes]

end

/-- A search by index finds the type that the index denotes. -/
theorem find?_eq_some_iff {types : List TypeDef} {index : Index} {t : TypeDef} :
    find? types index = some t ↔ Denotes types index t := by
  cases index with
  | number n =>
    have read : n.value % UInt32.size = (n.toU32 : Int) :=
      (Int.toNat_of_nonneg (Int.emod_nonneg _ (by decide))).symm
    constructor
    · exact fun found => ⟨n.toU32, read, found⟩
    · rintro ⟨k, same, found⟩
      obtain rfl : n.toU32 = k := Int.ofNat.inj (read.symm.trans same)
      exact found
  | identifier id =>
    have named : ∀ t : TypeDef, (t.id.map Identifier.value == some id.value) = true ↔
        (t.id.map Identifier.value) = some id.value := fun t => beq_iff_eq
    rw [find?, List.find?_eq_some_iff_getElem]
    simp only [Denotes, DenotesAs, FirstAt, List.getElem?_map]
    constructor
    · rintro ⟨isNamed, k, within, rfl, before⟩
      have here : types[k]? = some types[k] := List.getElem?_eq_getElem within
      refine ⟨k, ⟨by rw [here, Option.map_some, beq_iff_eq.1 isNamed], fun j earlier => ?_⟩, here⟩
      have other := before j earlier
      rw [List.getElem?_eq_getElem (Nat.lt_trans earlier within), Option.map_some]
      simpa using other
    · rintro ⟨k, ⟨isNamed, before⟩, found⟩
      obtain ⟨within, rfl⟩ := List.getElem?_eq_some_iff.1 found
      rw [found, Option.map_some, Option.some.injEq] at isNamed
      refine ⟨beq_iff_eq.2 isNamed, k, within, rfl, fun j earlier => ?_⟩
      have other := before j earlier
      rw [List.getElem?_eq_getElem (Nat.lt_trans earlier within), Option.map_some] at other
      simpa using other

variable {types : List TypeDef} {signature : Index → Signature}

/-- The signatures are those of the definitions that references denote. -/
def SignaturesOf (types : List TypeDef) (signature : Index → Signature) : Prop :=
  ∀ index t, Denotes types index t → signature index = t.functype

/-- The references that nodes hold denote definitions. -/
def AllDenote (types : List TypeDef) (nodes : List Node) : Prop :=
  ∀ node ∈ nodes, ∀ index, node.signature? = some (.ref index) → ∃ t, Denotes types index t

/-- The references of two lists all denote types when those of each do. -/
theorem allDenote_append {nodes others : List Node} :
    AllDenote types (nodes ++ others) ↔ AllDenote types nodes ∧ AllDenote types others := List.forall_mem_append

/-- A node that holds no signature only matters by what is below it. -/
theorem allDenote_cons {node : Node} {nodes : List Node} (none : node.signature? = none) :
    AllDenote types (node :: nodes) ↔ AllDenote types nodes := by
  refine List.forall_mem_cons.trans (and_iff_right fun index held => ?_)
  rw [none] at held
  cases held

/-- A node that holds a signature matters by it and by what is below it. -/
theorem allDenote_cons_of_signature {node : Node} {nodes : List Node} {sig : SignatureRef}
    (holds : node.signature? = some sig) :
    AllDenote types (node :: nodes) ↔
      (∀ index, sig = .ref index → ∃ t, Denotes types index t) ∧ AllDenote types nodes := by
  refine List.forall_mem_cons.trans (and_congr_left fun _ => ?_)
  rw [holds]
  simp only [Option.some.injEq]

theorem allDenote_nil : AllDenote types [] := fun _ inside => nomatch inside

/-- A reference is inlined exactly when it denotes a type. -/
theorem okIff_inlineRef (signatures : SignaturesOf types signature) (sig : SignatureRef) :
    OkIff (inlineRef types sig) (∀ index, sig = .ref index → ∃ t, Denotes types index t)
      (sig.inlined signature) := by
  cases sig with
  | inline s => exact (okIff_pure _).congr ⟨fun _ => nofun, fun _ => trivial⟩
  | ref index =>
    rw [inlineRef, SignatureRef.inlined]
    cases found : find? types index with
    | none =>
      refine okIff_error (fun all => ?_) _
      obtain ⟨t, denotes⟩ := all index rfl
      rw [find?_eq_some_iff.2 denotes] at found
      cases found
    | some t =>
      have denotes : Denotes types index t := find?_eq_some_iff.1 found
      rw [signatures index t denotes]
      refine (okIff_pure _).congr ⟨fun _ _ same => ?_, fun _ => trivial⟩
      cases same
      exact ⟨t, denotes⟩

/-- The type of an imported function is inlined exactly when it denotes one. -/
theorem okIff_inlineFuncImport (signatures : SignaturesOf types signature) (d : FuncImport) :
    OkIff (inlineFuncImport types d) (∀ index, d.signature = .ref index → ∃ t, Denotes types index t)
      { d with signature := d.signature.inlined signature } :=
  (okIff_inlineRef signatures d.signature).map (FuncImport.mk d.id)

mutual

/-- A node is inlined exactly when every reference in it denotes a type. -/
theorem okIff_inline (signatures : SignaturesOf types signature) : ∀ node : Node,
    OkIff (inline types node) (AllDenote types node.nodes) (node.inlined signature)
  | .program body => by
    rw [inline, nodes, inlined]
    exact ((okIff_inlineAll signatures body).map Node.program).congr (allDenote_cons rfl).symm
  | .module id fields metadata => by
    rw [inline, nodes, inlined]
    exact ((okIff_inlineAll signatures fields).map (Node.module id · metadata)).congr (allDenote_cons rfl).symm
  | .func name sig locals body metadata => by
    rw [inline, nodes, inlined]
    exact ((okIff_inlineRef signatures sig).bind ((okIff_inlineAll signatures body).map _)).congr
      (allDenote_cons_of_signature rfl).symm
  | .instr name object args memArg => by
    rw [inline, nodes, inlined]
    exact ((okIff_inlineAll signatures args).map (Node.instr name object · memArg)).congr (allDenote_cons rfl).symm
  | .block label body result => by
    rw [inline, nodes, inlined]
    exact ((okIff_inlineAll signatures body).map (Node.block label · result)).congr (allDenote_cons rfl).symm
  | .loop label result body => by
    rw [inline, nodes, inlined]
    exact ((okIff_inlineAll signatures body).map (Node.loop label result)).congr (allDenote_cons rfl).symm
  | .ifElse label result consequent alternate => by
    rw [inline, nodes, inlined]
    exact ((okIff_inlineAll signatures consequent).bind ((okIff_inlineAll signatures alternate).map _)).congr
      (allDenote_append.symm.trans (allDenote_cons rfl).symm)
  | .callIndirect sig => by
    rw [inline, nodes, inlined]
    · exact ((okIff_inlineRef signatures sig).map Node.callIndirect).congr
        ((allDenote_cons_of_signature rfl).trans (and_iff_left allDenote_nil)).symm
    all_goals nofun
  | .global type init name => by
    rw [inline, nodes, inlined]
    exact ((okIff_inlineAll signatures init).map (Node.global type · name)).congr (allDenote_cons rfl).symm
  | .elem target offset funcs => by
    rw [inline, nodes, inlined]
    exact ((okIff_inlineAll signatures offset).map (Node.elem target · funcs)).congr (allDenote_cons rfl).symm
  | .data target offset values => by
    rw [inline, nodes, inlined]
    exact ((okIff_inlineAll signatures offset).map (Node.data target · values)).congr (allDenote_cons rfl).symm
  | .funcImport d => by
    rw [inline, nodes, inlined]
    · exact ((okIff_inlineFuncImport signatures d).map Node.funcImport).congr
        ((allDenote_cons_of_signature rfl).trans (and_iff_left allDenote_nil)).symm
    all_goals nofun
  | .moduleImport ⟨exporter, name, .func d, id⟩ => by
    rw [inline, nodes, inlined]
    exact ((okIff_inlineFuncImport signatures d).map fun d => Node.moduleImport ⟨exporter, name, .func d, id⟩).congr
      ((allDenote_cons rfl).trans ((allDenote_cons_of_signature rfl).trans (and_iff_left allDenote_nil))).symm
  | .moduleImport ⟨_, _, .global _, _⟩ | .moduleImport ⟨_, _, .memory _, _⟩ | .moduleImport ⟨_, _, .table _, _⟩
  | .typeDef _ | .moduleMetadata _ | .moduleName _ | .functionName _ | .localName _ | .sectionMetadata _
  | .signature _ | .call _ | .number _ | .longNumber _ | .float _ | .valtype _ | .identifier _ | .globalType _
  | .table _ | .memory _ | .limits _ | .exportDescr _ | .moduleExport _ | .start _ | .bytes _ =>
    (okIff_pure _).congr (iff_of_true trivial ((allDenote_cons rfl).2 allDenote_nil))

/-- A list is inlined exactly when every reference in it denotes a type. -/
theorem okIff_inlineAll (signatures : SignaturesOf types signature) : ∀ nodes : List Node,
    OkIff (inlineAll types nodes) (AllDenote types (nodesIn nodes)) (allInlined signature nodes)
  | [] => by
    rw [inlineAll, nodesIn, allInlined]
    exact (okIff_pure []).congr (iff_of_true trivial allDenote_nil)
  | node :: nodes => by
    rw [inlineAll, nodesIn, allInlined]
    exact ((okIff_inline signatures node).bind ((okIff_inlineAll signatures nodes).map _)).congr
      allDenote_append.symm

end

/-! ## Inlining again -/

/-- An inlined reference is inlined to itself. -/
theorem inlineRef_inlined (sig : SignatureRef) :
    inlineRef types (sig.inlined signature) = .ok (sig.inlined signature) := by
  cases sig <;> rfl

theorem inlineFuncImport_inlined (d : FuncImport) :
    inlineFuncImport types { d with signature := d.signature.inlined signature } =
      .ok { d with signature := d.signature.inlined signature } := by
  rw [inlineFuncImport, inlineRef_inlined]
  rfl

mutual

/-- An inlined node is inlined to itself. -/
theorem inline_inlined : ∀ node : Node, inline types (node.inlined signature) = .ok (node.inlined signature)
  | .program body => by rw [inlined, inline, inlineAll_allInlined]; rfl
  | .module id fields metadata => by rw [inlined, inline, inlineAll_allInlined]; rfl
  | .func name sig locals body metadata => by
    rw [inlined, inline]
    exact bind_eq_ok_iff.2 ⟨_, inlineRef_inlined sig, bind_eq_ok_iff.2 ⟨_, inlineAll_allInlined body, rfl⟩⟩
  | .instr name object args memArg => by rw [inlined, inline, inlineAll_allInlined]; rfl
  | .block label body result => by rw [inlined, inline, inlineAll_allInlined]; rfl
  | .loop label result body => by rw [inlined, inline, inlineAll_allInlined]; rfl
  | .ifElse label result consequent alternate => by
    rw [inlined, inline, inlineAll_allInlined, inlineAll_allInlined]; rfl
  | .callIndirect sig => by rw [inlined, inline, inlineRef_inlined]; rfl
  | .global type init name => by rw [inlined, inline, inlineAll_allInlined]; rfl
  | .elem target offset funcs => by rw [inlined, inline, inlineAll_allInlined]; rfl
  | .data target offset values => by rw [inlined, inline, inlineAll_allInlined]; rfl
  | .funcImport d => by rw [inlined, inline, inlineFuncImport_inlined]; rfl
  | .moduleImport ⟨exporter, name, .func d, id⟩ => by
    rw [inlined, inline]
    exact bind_eq_ok_iff.2 ⟨_, inlineFuncImport_inlined d, rfl⟩
  | .moduleImport ⟨_, _, .global _, _⟩ | .moduleImport ⟨_, _, .memory _, _⟩ | .moduleImport ⟨_, _, .table _, _⟩
  | .typeDef _ | .moduleMetadata _ | .moduleName _ | .functionName _ | .localName _ | .sectionMetadata _
  | .signature _ | .call _ | .number _ | .longNumber _ | .float _ | .valtype _ | .identifier _ | .globalType _
  | .table _ | .memory _ | .limits _ | .exportDescr _ | .moduleExport _ | .start _ | .bytes _ => rfl

theorem inlineAll_allInlined : ∀ nodes : List Node,
    inlineAll types (allInlined signature nodes) = .ok (allInlined signature nodes)
  | [] => rfl
  | node :: nodes => by rw [allInlined, inlineAll, inline_inlined, inlineAll_allInlined]; rfl

end

/-- Definitions have signatures for the references that denote them. -/
theorem exists_signaturesOf (types : List TypeDef) : ∃ signature, SignaturesOf types signature := by
  refine ⟨fun index => ((find? types index).map TypeDef.functype).getD ⟨[], []⟩, fun index t denotes => ?_⟩
  show ((find? types index).map TypeDef.functype).getD ⟨[], []⟩ = t.functype
  rw [find?_eq_some_iff.2 denotes]
  rfl

end TypeReference

namespace Module

open TypeReference

/-- Inlining the types of a module succeeds just if every type reference in it denotes a definition.  It then puts
the signatures in place of the references and changes nothing else, and inlining again changes nothing. -/
theorem inlineTypes_exact (m : Module) :
    ((∃ m', m.inlineTypes = .ok m') ↔ ∀ index, m.Refers index → ∃ t, Denotes m.types index t) ∧
      ∀ m', m.inlineTypes = .ok m' →
        (∃ signature : Index → Signature,
          (∀ index t, Denotes m.types index t → signature index = t.functype) ∧ m' = m.inlined signature) ∧
        m'.inlineTypes = .ok m' := by
  obtain ⟨signature, signatures⟩ := exists_signaturesOf m.types
  have okIff : OkIff m.inlineTypes (AllDenote m.types m.nodes) (m.inlined signature) := by
    rw [inlineTypes, collectAll_eq]
    exact (okIff_inlineAll signatures m.fields).map fun fields => { m with fields }
  refine ⟨okIff.exists_iff.trans ⟨?_, ?_⟩, fun m' done => ?_⟩
  · rintro all index ⟨node, inside, holds⟩
    exact all node inside index holds
  · exact fun all node inside index holds => all index ⟨node, inside, holds⟩
  · obtain ⟨-, rfl⟩ := (okIff m').1 done
    exact ⟨⟨signature, signatures, rfl⟩, bind_eq_ok_iff.2 ⟨_, inlineAll_allInlined m.fields, rfl⟩⟩

/-- A module with one type definition, and with an indirect call inside the argument of an instruction, in a block,
whose type is given. -/
def nestedReference (sig : SignatureRef) : Module :=
  let body : List Node := [.block (.ofString "l") [.instr "drop" none [.callIndirect sig] none] none]
  ⟨none, [.func (.ofString "f") (.inline ⟨[], []⟩) [] body none,
    .typeDef ⟨some (.ofString "t"), ⟨[⟨none, .i32⟩], [.i64]⟩⟩], none⟩

theorem inlineTypes_exact_nestedReference :
    let m := nestedReference (.ref (.identifier (.ofString "t")))
    let m' := nestedReference (.inline ⟨[⟨none, .i32⟩], [.i64]⟩)
    m.inlineTypes = .ok m' ∧ m'.inlineTypes = .ok m' ∧ ∀ index, m.Refers index → ∃ t, Denotes m.types index t := by
  intro m m'
  have inlined : m.inlineTypes = .ok m' := rfl
  obtain ⟨succeeds, after⟩ := m.inlineTypes_exact
  exact ⟨inlined, (after m' inlined).2, succeeds.1 ⟨m', inlined⟩⟩

/-- A number past those of 32 bits denotes a definition that does not have this number. -/
theorem not_inlineTypes_unwrapped : ¬ ∀ m : Module,
    (∃ m', m.inlineTypes = .ok m') ↔ ∀ index, m.Refers index → ∃ t, DenotesAs (fun n => n) m.types index t := by
  intro all
  let m := nestedReference (.ref (.number ⟨2 ^ 32, "4294967296"⟩))
  have refers : m.Refers (.number ⟨2 ^ 32, "4294967296"⟩) :=
    ⟨.callIndirect _, by simp [m, nodes, nestedReference, Node.nodesIn, Node.nodes], rfl⟩
  have inlined : m.inlineTypes = .ok (nestedReference (.inline ⟨[⟨none, .i32⟩], [.i64]⟩)) := rfl
  obtain ⟨t, k, same, found⟩ := (all m).1 ⟨_, inlined⟩ _ refers
  have within : k < 1 := (List.getElem?_eq_some_iff.1 found).1
  have past : (2 ^ 32 : Int) = k := same
  omega

end Module

end WasmEngine
