import WasmEngine.Proofs.Binary.SectionOrder

/-!
# What type indices mean

A binary refers to its type section from imports, functions and indirect calls.  The type section holds the types of
all imports and functions and of the indirect calls inside functions, but initialisers and offsets are only written
after it.  Where these call no type that is not there already, every type index of the binary is one of the type
section and means the signature that it was written for (`indexes_of_encode`).
-/

namespace WasmEngine.Binary

open Encode Outcome

/-! ## Type indices and signatures -/

/-- A type index means a signature: its entry has the parameters and results of the signature or, for a reference,
those of the type definition of this number. -/
def MeansType (defs types : List FuncType) : SignatureRef → Nat → Prop
  | .inline s, i => types[i]? = some s.funcType
  | .ref reference, i => index reference = .ok i ∧ ∃ t, defs[i]? = some t ∧ types[i]? = some t

mutual

/-- The bytes of an instruction whose type indices mean their signatures. -/
inductive Spelled (defs types : List FuncType) : Node → List UInt8 → Prop
  | instr {name : String} {object : Option Valtype} {args : List Node} {memArg : Option MemArg} {bytes : List UInt8}
    (written : plain name object args memArg = .ok bytes) : Spelled defs types (.instr name object args memArg) bytes
  | block {label : Identifier} {body : List Node} {result : Option Valtype} {code : List UInt8}
    (inside : AllSpelled defs types body code) :
    Spelled defs types (.block label body result) (blockByte :: blockType result :: (code ++ [endByte]))
  | loop {label : Identifier} {body : List Node} {result : Option Valtype} {code : List UInt8}
    (inside : AllSpelled defs types body code) :
    Spelled defs types (.loop label result body) (loopByte :: blockType result :: (code ++ [endByte]))
  | ifElse {label : Identifier} {consequent alternate : List Node} {result : Option Valtype}
    {whenTrue whenFalse : List UInt8} (first : AllSpelled defs types consequent whenTrue)
    (second : AllSpelled defs types alternate whenFalse) :
    Spelled defs types (.ifElse label result consequent alternate)
      (ifByte :: blockType result ::
        (whenTrue ++ (if alternate.isEmpty then [] else elseByte :: whenFalse) ++ [endByte]))
  | call {callee : Index} {n : Nat} (number : index callee = .ok n) :
    Spelled defs types (.call callee) (callByte :: u32 n)
  | callIndirect {sig : SignatureRef} {i : Nat} (means : MeansType defs types sig i) :
    Spelled defs types (.callIndirect sig) (callIndirectByte :: (u32 i ++ [0x00]))

/-- The bytes of instructions in a row whose type indices mean their signatures. -/
inductive AllSpelled (defs types : List FuncType) : List Node → List UInt8 → Prop
  | nil : AllSpelled defs types [] []
  | cons {node : Node} {nodes : List Node} {here rest : List UInt8} (first : Spelled defs types node here)
    (others : AllSpelled defs types nodes rest) : AllSpelled defs types (node :: nodes) (here ++ rest)

end

/-- The bytes of an expression whose type indices mean their signatures. -/
def ExpressionSpelled (defs types : List FuncType) (nodes : List Node) (bytes : List UInt8) : Prop :=
  ∃ code, AllSpelled defs types nodes code ∧ bytes = code ++ [endByte]

/-- The types that the definitions of a module give. -/
def Encode.Fields.declaredTypes (f : Fields) : List FuncType := f.types.map (·.functype.funcType)

/-- What the sections of a binary hold beside tables, memories and names. -/
structure Parts where
  importTypes : List Nat
  funcTypes : List Nat
  globals : List (List UInt8)
  exports : List (List UInt8)
  start : List UInt8
  inline : List (Option (List UInt8))
  elems : List (List UInt8)
  bodies : List (List UInt8)
  data : List (List UInt8)

/-- The binary of some parts with a type section. -/
def Parts.assembled (p : Parts) (f : Fields) (types : List FuncType) : List UInt8 :=
  Write.preamble
    ++ vectorSection .type (types.map funcType)
    ++ vectorSection .imports (f.imports.zipWith importEntry p.importTypes)
    ++ vectorSection .function (p.funcTypes.map u32)
    ++ vectorSection .table (f.tables.map tableType)
    ++ vectorSection .memory (f.memories.map fun m => limits m.limits)
    ++ vectorSection .global p.globals
    ++ vectorSection .exports p.exports
    ++ p.start
    ++ vectorSection .element (p.inline.filterMap id ++ p.elems)
    ++ vectorSection .code (p.bodies.map Write.byteVector)
    ++ vectorSection .data p.data
    ++ nameSection f.importedFuncs f.funcs

/-- The locals of a function, equal neighbours put together. -/
def localsOf (g : Func) : List UInt8 :=
  vector (fun (count, t) => u32 count ++ [valtypeByte t]) (runs (g.locals.map Param.valtype))

/-- All type indices in the parts of a binary mean the signatures that they are written for: those of imports, of
functions, and of the indirect calls in the bodies of functions, in the initialisers of globals and in the offsets of
segments. -/
structure Parts.Mean (p : Parts) (f : Fields) (types : List FuncType) : Prop where
  imports : List.Forall₂ (fun i t => ∀ d, i.descr = .func d → MeansType f.declaredTypes types d.signature t)
    f.imports p.importTypes
  funcs : List.Forall₂ (fun g t => MeansType f.declaredTypes types g.signature t) f.funcs p.funcTypes
  bodies : List.Forall₂ (fun g b => ∃ code, ExpressionSpelled f.declaredTypes types g.body code ∧
    b = localsOf g ++ code) f.funcs p.bodies
  globals : List.Forall₂ (fun g b => ∃ code, ExpressionSpelled f.declaredTypes types g.2 code ∧
    b = globalType g.1 ++ code) f.globals p.globals
  exports : List.Forall₂ (fun e b => exportEntry e = .ok b) f.exports p.exports
  start : startSection f.starts = .ok p.start
  inline : List.Forall₂ (fun t b => inlineElements t.2 t.1 = .ok b) (f.tables.zipIdx f.importedTables) p.inline
  elems : List.Forall₂ (fun e b => ∃ target code funcs, index e.1 = .ok target ∧
    ExpressionSpelled f.declaredTypes types e.2.1 code ∧ indices e.2.2 = .ok funcs ∧
    b = u32 target ++ code ++ funcs) f.elems p.elems
  data : List.Forall₂ (fun d b => ∃ target code, index d.1 = .ok target ∧
    ExpressionSpelled f.declaredTypes types d.2.1 code ∧ b = u32 target ++ code ++ Write.byteVector d.2.2)
    f.data p.data

/-- A binary of the fields of a module with a type section that its type indices refer to. -/
def Indexes (f : Fields) (types : List FuncType) (bytes : List UInt8) : Prop :=
  types.length ≤ bytes.length ∧ ∃ p : Parts, bytes = p.assembled f types ∧ p.Mean f types

/-! ## Steps of an encoding -/

namespace Encode

variable {α β : Type} {defs : List FuncType} {x : EncodeM α} {f : α → EncodeM β}

/-- The type section so far begins with the definitions of the module. -/
structure Begins (defs : List FuncType) (t : TypeTable) : Prop where
  declared : t.declared = defs.length
  entries : defs <+: t.entries

/-- A step only adds to the type section, and what it gives has a property for every type section that goes on from
the one that it leaves. -/
def Settles (defs : List FuncType) (P : List FuncType → α → Prop) (x : EncodeM α) : Prop :=
  ∀ t a u, Begins defs t → x t = .ok (a, u) → u.declared = t.declared ∧ t.entries <+: u.entries ∧
    ∀ types, u.entries <+: types → P types a

variable {P : List FuncType → α → Prop} {Q : List FuncType → β → Prop}

theorem settles_pure {a : α} (holds : ∀ types, P types a) : Settles defs P (pure a) := fun t b u _ done => by
  obtain ⟨rfl, rfl⟩ := pure_eq_ok_iff.1 done
  exact ⟨rfl, List.prefix_refl _, fun types _ => holds types⟩

theorem settles_lift {r : Except EncodeError α} (holds : ∀ a, r = .ok a → ∀ types, P types a) :
    Settles defs P (liftM r) := fun t a u _ done => by
  obtain ⟨same, rfl⟩ := lift_eq_ok_iff.1 done
  exact ⟨rfl, List.prefix_refl _, fun types _ => holds a same types⟩

/-- A step that settles keeps what the type section begins with. -/
theorem Begins.of_settles {t u : TypeTable} {a : α} (begins : Begins defs t) (settles : Settles defs P x)
    (done : x t = .ok (a, u)) : Begins defs u := by
  obtain ⟨declared, grown, -⟩ := settles t a u begins done
  exact ⟨declared.trans begins.declared, begins.entries.trans grown⟩

/-- Two steps in a row settle what both spell. -/
theorem Settles.bind (first : Settles defs P x)
    (rest : ∀ a, Settles defs (fun types b => P types a → Q types b) (f a)) : Settles defs Q (x >>= f) := by
  intro t b u begins done
  obtain ⟨a, t', here, there⟩ := bind_eq_ok_iff.1 done
  obtain ⟨declared, grown, holds⟩ := first t a t' begins here
  obtain ⟨declared', grown', holds'⟩ := rest a t' b u (begins.of_settles first here) there
  exact ⟨declared'.trans declared, grown.trans grown', fun types more =>
    holds' types more (holds types (grown'.trans more))⟩

/-- What a step gives is put to use. -/
theorem Settles.map (first : Settles defs P x) {g : α → β} (uses : ∀ types a, P types a → Q types (g a)) :
    Settles defs Q (x >>= fun a => pure (g a)) :=
  first.bind fun a => settles_pure fun types => uses types a

theorem settles_mapM {g : α → EncodeM β} {R : List FuncType → α → β → Prop}
    (each : ∀ a, Settles defs (fun types b => R types a b) (g a)) (as : List α) :
    Settles defs (fun types bs => List.Forall₂ (R types) as bs) (as.mapM g) := by
  induction as with
  | nil => exact settles_pure fun _ => .nil
  | cons a as ih =>
    rw [List.mapM_cons]
    exact (each a).bind fun b => ih.map fun types bs others first => .cons first others

/-- The items of a list are spelled against the type section that there is in the end. -/
theorem Begins.mapM {t u : TypeTable} (begins : Begins defs t) {g : α → EncodeM β}
    {R : List FuncType → α → β → Prop} (each : ∀ a, Settles defs (fun types b => R types a b) (g a))
    {as : List α} {bs : List β} (done : as.mapM g t = .ok (bs, u)) :
    Begins defs u ∧ t.entries <+: u.entries ∧ ∀ types, u.entries <+: types → List.Forall₂ (R types) as bs := by
  have settles := settles_mapM each as
  exact ⟨begins.of_settles settles done, (settles t bs u begins done).2⟩

/-- A signature in place gets the index of its type, and a reference keeps its number, which is one of the
definitions. -/
theorem settles_typeIndex (sig : SignatureRef) :
    Settles defs (fun types i => MeansType defs types sig i) (typeIndex sig) := by
  intro t i u begins done
  refine ⟨?_, keeping_typeIndex sig t i u done, fun types more => ?_⟩
  · cases sig with
    | inline s =>
      simp only [typeIndex] at done
      split at done <;> cases done <;> rfl
    | ref reference =>
      simp only [typeIndex] at done
      split at done
      · cases done
      · split_ifs at done
        cases done
        rfl
  · cases sig with
    | inline s => exact getElem?_of_typeIndex done more
    | ref reference =>
      simp only [typeIndex] at done
      split at done
      · cases done
      · next position number =>
        split_ifs at done with known
        cases done
        rw [begins.declared] at known
        obtain ⟨later, rfl⟩ := begins.entries.trans more
        exact ⟨number, defs[i], List.getElem?_eq_getElem known,
          (List.getElem?_append_left known).trans (List.getElem?_eq_getElem known)⟩

mutual

theorem settles_instruction : ∀ node : Node,
    Settles defs (fun types bytes => Spelled defs types node bytes) (instruction node)
  | .instr name object args memArg => by
    rw [instruction]
    exact settles_lift fun bytes written _ => .instr written
  | .block label body result => by
    rw [instruction]
    exact (settles_instructions body).map fun types code inside => .block inside
  | .loop label result body => by
    rw [instruction]
    exact (settles_instructions body).map fun types code inside => .loop inside
  | .ifElse label result consequent alternate => by
    rw [instruction]
    exact (settles_instructions consequent).bind fun whenTrue =>
      (settles_instructions alternate).map fun types whenFalse second first => .ifElse first second
  | .call callee => by
    rw [instruction]
    exact Settles.map (settles_lift fun n number _ => number) fun types n number => .call number
  | .callIndirect sig => by
    rw [instruction]
    exact (settles_typeIndex sig).map fun types i means => .callIndirect means
  | .program _ | .module .. | .moduleMetadata _ | .moduleName _ | .functionName _ | .localName _
  | .sectionMetadata _ | .typeDef _ | .func .. | .signature _ | .number _ | .longNumber _ | .float _
  | .valtype _ | .identifier _ | .globalType _ | .global .. | .table _ | .memory _ | .limits _
  | .funcImport _ | .moduleImport _ | .exportDescr _ | .moduleExport _ | .start _ | .elem ..
  | .data .. | .bytes _ => by
    intro _ _ _ _ done
    simp only [instruction] at done
    cases done

theorem settles_instructions : ∀ nodes : List Node,
    Settles defs (fun types bytes => AllSpelled defs types nodes bytes) (instructions nodes)
  | [] => by
    rw [instructions]
    exact settles_pure fun _ => .nil
  | node :: nodes => by
    rw [instructions]
    exact (settles_instruction node).bind fun here =>
      (settles_instructions nodes).map fun types rest others first => .cons first others

end

theorem settles_expression (nodes : List Node) :
    Settles defs (fun types bytes => ExpressionSpelled defs types nodes bytes) (expression nodes) :=
  (settles_instructions nodes).map fun _ code spelled => ⟨code, spelled, rfl⟩

theorem settles_importType (i : ModuleImport) :
    Settles defs (fun types t => ∀ d, i.descr = .func d → MeansType defs types d.signature t) (importType i) := by
  unfold importType
  split
  · next d same =>
    intro t n u begins done
    obtain ⟨declared, grown, means⟩ := settles_typeIndex d.signature t n u begins done
    refine ⟨declared, grown, fun types more d' same' => ?_⟩
    cases same.symm.trans same'
    exact means types more
  · next other => exact settles_pure fun _ d same => absurd same (other d)

theorem settles_body (g : Func) : Settles defs (fun types b => ∃ code, ExpressionSpelled defs types g.body code ∧
    b = localsOf g ++ code) (body g) :=
  (settles_expression g.body).map fun _ code spelled => ⟨code, spelled, rfl⟩

theorem settles_globalEntry (g : GlobalType × List Node) :
    Settles defs (fun types b => ∃ code, ExpressionSpelled defs types g.2 code ∧ b = globalType g.1 ++ code)
      (globalEntry g) :=
  (settles_expression g.2).map fun _ code spelled => ⟨code, spelled, rfl⟩

theorem settles_elemEntry (e : Index × List Node × List Index) :
    Settles defs (fun types b => ∃ target code funcs, index e.1 = .ok target ∧
      ExpressionSpelled defs types e.2.1 code ∧ indices e.2.2 = .ok funcs ∧ b = u32 target ++ code ++ funcs)
      (elemEntry e) :=
  Settles.bind (settles_lift fun _ number _ => number) fun target =>
    (settles_expression e.2.1).bind fun code =>
      Settles.map (settles_lift fun _ number _ => number) fun _ funcs written spelled number =>
        ⟨target, code, funcs, number, spelled, written, rfl⟩

theorem settles_dataEntry (d : Index × List Node × List UInt8) :
    Settles defs (fun types b => ∃ target code, index d.1 = .ok target ∧
      ExpressionSpelled defs types d.2.1 code ∧ b = u32 target ++ code ++ Write.byteVector d.2.2) (dataEntry d) :=
  Settles.bind (settles_lift fun _ number _ => number) fun target =>
    (settles_expression d.2.1).map fun _ code spelled number => ⟨target, code, number, spelled, rfl⟩

theorem settles_exportEntry (e : ModuleExport) :
    Settles defs (fun _ b => exportEntry e = .ok b) (liftM (exportEntry e)) :=
  settles_lift fun _ done _ => done

theorem settles_inlineElements (t : TableDef × Nat) :
    Settles defs (fun _ b => inlineElements t.2 t.1 = .ok b) (liftM (inlineElements t.2 t.1)) :=
  settles_lift fun _ done _ => done

end Encode

/-! ## Types that are there already -/

/-- An instruction calls indirectly, by itself or inside. -/
inductive Calls : Node → SignatureRef → Prop
  | here {sig : SignatureRef} : Calls (.callIndirect sig) sig
  | block {label : Identifier} {body : List Node} {result : Option Valtype} {node : Node} {sig : SignatureRef}
    (inside : node ∈ body) (calls : Calls node sig) : Calls (.block label body result) sig
  | loop {label : Identifier} {body : List Node} {result : Option Valtype} {node : Node} {sig : SignatureRef}
    (inside : node ∈ body) (calls : Calls node sig) : Calls (.loop label result body) sig
  | consequent {label : Identifier} {whenTrue whenFalse : List Node} {result : Option Valtype} {node : Node}
    {sig : SignatureRef} (inside : node ∈ whenTrue) (calls : Calls node sig) :
    Calls (.ifElse label result whenTrue whenFalse) sig
  | alternate {label : Identifier} {whenTrue whenFalse : List Node} {result : Option Valtype} {node : Node}
    {sig : SignatureRef} (inside : node ∈ whenFalse) (calls : Calls node sig) :
    Calls (.ifElse label result whenTrue whenFalse) sig

/-- A type is called by instructions. -/
def CallsType (nodes : List Node) (t : FuncType) : Prop :=
  ∃ node ∈ nodes, ∃ s, Calls node (.inline s) ∧ s.funcType = t

/-- A type is called by the initialiser of a global or by the offset of a segment. -/
def Encode.Fields.CallsOutside (f : Fields) (t : FuncType) : Prop :=
  (∃ g ∈ f.globals, CallsType g.2 t) ∨ (∃ e ∈ f.elems, CallsType e.2.1 t) ∨ ∃ d ∈ f.data, CallsType d.2.1 t

/-- A type is defined, or is that of an import or a function, or is called by a function. -/
def Encode.Fields.Knows (f : Fields) (t : FuncType) : Prop :=
  t ∈ f.declaredTypes ∨ (∃ i ∈ f.imports, ∃ d s, i.descr = .func d ∧ d.signature = .inline s ∧ s.funcType = t) ∨
    (∃ g ∈ f.funcs, ∃ s, g.signature = .inline s ∧ s.funcType = t) ∨ ∃ g ∈ f.funcs, CallsType g.body t

namespace Encode

variable {α β : Type} {x : EncodeM α} {f : α → EncodeM β} {t : TypeTable}

/-- A step adds nothing to a type section. -/
def Leaves (t : TypeTable) (x : EncodeM α) : Prop := ∀ a u, x t = .ok (a, u) → u = t

theorem leaves_pure (a : α) : Leaves t (pure a : EncodeM α) := fun _ _ done => (pure_eq_ok_iff.1 done).2.symm

theorem leaves_lift (r : Except EncodeError α) : Leaves t (liftM r : EncodeM α) := fun _ _ done =>
  (lift_eq_ok_iff.1 done).2.symm

/-- Two steps in a row leave the type section alone if both do. -/
theorem Leaves.bind (first : Leaves t x) (rest : ∀ a, Leaves t (f a)) : Leaves t (x >>= f) := fun _ _ done => by
  obtain ⟨a, t', here, there⟩ := bind_eq_ok_iff.1 done
  obtain rfl := first a t' here
  exact rest a _ _ there

theorem leaves_mapM {g : α → EncodeM β} {as : List α} (each : ∀ a ∈ as, Leaves t (g a)) : Leaves t (as.mapM g) := by
  induction as with
  | nil => exact leaves_pure []
  | cons a as ih =>
    obtain ⟨first, others⟩ := List.forall_mem_cons.1 each
    rw [List.mapM_cons]
    exact first.bind fun b => (ih others).bind fun bs => leaves_pure _

theorem leaves_typeIndex {sig : SignatureRef} (known : ∀ s, sig = .inline s → s.funcType ∈ t.entries) :
    Leaves t (typeIndex sig) := by
  intro i u done
  cases sig with
  | inline s =>
    simp only [typeIndex] at done
    split at done
    · cases done
      rfl
    · next none =>
      have absent := List.findIdx?_eq_none_iff.1 none _ (known s rfl)
      simp at absent
  | ref reference =>
    simp only [typeIndex] at done
    split at done
    · cases done
    · split_ifs at done
      cases done
      rfl

mutual

theorem leaves_instruction : ∀ {node : Node}, (∀ s, Calls node (.inline s) → s.funcType ∈ t.entries) →
    Leaves t (instruction node)
  | .instr _ _ _ _, _ => by
    rw [instruction]
    exact leaves_lift _
  | .block _ _ _, known => by
    rw [instruction]
    exact (leaves_instructions fun node inside s calls => known s (.block inside calls)).bind fun _ => leaves_pure _
  | .loop _ _ _, known => by
    rw [instruction]
    exact (leaves_instructions fun node inside s calls => known s (.loop inside calls)).bind fun _ => leaves_pure _
  | .ifElse _ _ _ _, known => by
    rw [instruction]
    exact (leaves_instructions fun node inside s calls => known s (.consequent inside calls)).bind fun _ =>
      (leaves_instructions fun node inside s calls => known s (.alternate inside calls)).bind fun _ => leaves_pure _
  | .call _, _ => by
    rw [instruction]
    exact (leaves_lift _).bind fun _ => leaves_pure _
  | .callIndirect sig, known => by
    rw [instruction]
    exact (leaves_typeIndex fun s same => known s (same ▸ .here)).bind fun _ => leaves_pure _
  | .program _, _ | .module .., _ | .moduleMetadata _, _ | .moduleName _, _ | .functionName _, _ | .localName _, _
  | .sectionMetadata _, _ | .typeDef _, _ | .func .., _ | .signature _, _ | .number _, _ | .longNumber _, _
  | .float _, _ | .valtype _, _ | .identifier _, _ | .globalType _, _ | .global .., _ | .table _, _ | .memory _, _
  | .limits _, _ | .funcImport _, _ | .moduleImport _, _ | .exportDescr _, _ | .moduleExport _, _ | .start _, _
  | .elem .., _ | .data .., _ | .bytes _, _ => by
    intro _ _ done
    simp only [instruction] at done
    cases done

theorem leaves_instructions : ∀ {nodes : List Node},
    (∀ node ∈ nodes, ∀ s, Calls node (.inline s) → s.funcType ∈ t.entries) → Leaves t (instructions nodes)
  | [], _ => by
    rw [instructions]
    exact leaves_pure _
  | node :: nodes, known => by
    rw [instructions]
    exact (leaves_instruction (known node List.mem_cons_self)).bind fun _ =>
      (leaves_instructions fun other inside => known other (List.mem_cons_of_mem _ inside)).bind fun _ =>
        leaves_pure _

end

theorem leaves_expression {nodes : List Node} (known : ∀ type, CallsType nodes type → type ∈ t.entries) :
    Leaves t (expression nodes) :=
  (leaves_instructions fun node inside s calls => known _ ⟨node, inside, s, calls, rfl⟩).bind fun _ => leaves_pure _

end Encode

section Spelled

variable {defs types : List FuncType}

/-- Each of some instructions that are spelled is spelled. -/
theorem exists_of_allSpelled {node : Node} : ∀ {nodes : List Node} {code : List UInt8},
    AllSpelled defs types nodes code → node ∈ nodes → ∃ here, Spelled defs types node here
  | _ :: _, _, .cons first others, inside => by
    obtain rfl | later := List.mem_cons.1 inside
    · exact ⟨_, first⟩
    · exact exists_of_allSpelled others later

/-- The types that a spelled instruction calls are in the type section. -/
theorem mem_of_calls {node : Node} {s : Signature} {bytes : List UInt8} (calls : Calls node (.inline s))
    (spelled : Spelled defs types node bytes) : s.funcType ∈ types := by
  generalize same : SignatureRef.inline s = sig at calls
  induction calls generalizing bytes with
  | here =>
    subst same
    cases spelled with
    | callIndirect means => exact List.mem_of_getElem? means
  | block inside _ ih =>
    cases spelled with
    | block code =>
      obtain ⟨_, here⟩ := exists_of_allSpelled code inside
      exact ih here same
  | loop inside _ ih =>
    cases spelled with
    | loop code =>
      obtain ⟨_, here⟩ := exists_of_allSpelled code inside
      exact ih here same
  | consequent inside _ ih =>
    cases spelled with
    | ifElse first _ =>
      obtain ⟨_, here⟩ := exists_of_allSpelled first inside
      exact ih here same
  | alternate inside _ ih =>
    cases spelled with
    | ifElse _ second =>
      obtain ⟨_, here⟩ := exists_of_allSpelled second inside
      exact ih here same

/-- A type that a call in an expression needs is in the type section. -/
theorem mem_of_callsType {nodes : List Node} {bytes : List UInt8} {t : FuncType} (calls : CallsType nodes t)
    (spelled : ExpressionSpelled defs types nodes bytes) : t ∈ types := by
  obtain ⟨node, inside, s, calls, rfl⟩ := calls
  obtain ⟨code, spelled, -⟩ := spelled
  obtain ⟨_, here⟩ := exists_of_allSpelled spelled inside
  exact mem_of_calls calls here

end Spelled

/-! ## Modules -/

/-- A section of entries of one byte or more has no more entries than bytes. -/
theorem length_le_vectorSection (id : SectionId) {entries : List (List UInt8)} (filled : ∀ e ∈ entries, e ≠ []) :
    entries.length ≤ (vectorSection id entries).length := by
  have rest := Decode.length_le_flatMap fun e (listed : e ∈ entries) => List.length_pos_iff.2 (filled e listed)
  rw [List.flatMap_id'] at rest
  unfold vectorSection
  split
  · next none =>
    rw [List.isEmpty_iff.1 none]
    exact Nat.le_refl _
  · simp only [Write.sectionOf, Write.byteVector, List.length_cons, List.length_append]
    omega

/-- A binary has more bytes than types. -/
theorem length_types_le (p : Parts) (f : Fields) (types : List FuncType) :
    types.length ≤ (p.assembled f types).length := by
  have section_ := length_le_vectorSection .type (fun e inside => ?_ : ∀ e ∈ types.map funcType, e ≠ [])
  · rw [List.length_map] at section_
    simp only [Parts.assembled, List.length_append]
    omega
  · obtain ⟨t, -, rfl⟩ := List.mem_map.1 inside
    exact List.cons_ne_nil _ _

/-- The types of imports and functions, and those that functions call, are in the type section. -/
theorem mem_of_knows {f : Fields} {types : List FuncType} {importTypes funcTypes : List Nat}
    {bodies : List (List UInt8)} (defined : f.declaredTypes <+: types)
    (imports : List.Forall₂ (fun i t => ∀ d, i.descr = .func d → MeansType f.declaredTypes types d.signature t)
      f.imports importTypes)
    (funcs : List.Forall₂ (fun g t => MeansType f.declaredTypes types g.signature t) f.funcs funcTypes)
    (code : List.Forall₂ (fun g b => ∃ code, ExpressionSpelled f.declaredTypes types g.body code ∧
      b = localsOf g ++ code) f.funcs bodies) {t : FuncType} (knows : f.Knows t) : t ∈ types := by
  obtain inside | ⟨i, inside, d, s, descr, sig, rfl⟩ | ⟨g, inside, s, sig, rfl⟩ | ⟨g, inside, calls⟩ := knows
  · exact defined.subset inside
  · obtain ⟨n, -, means⟩ := exists_of_forall₂ imports.flip inside
    have here := means d descr
    rw [sig] at here
    exact List.mem_of_getElem? here
  · obtain ⟨n, -, here⟩ := exists_of_forall₂ funcs.flip inside
    rw [sig] at here
    exact List.mem_of_getElem? here
  · obtain ⟨_, -, _, spelled, -⟩ := exists_of_forall₂ code.flip inside
    exact mem_of_callsType calls spelled

/-- Initialisers and offsets that call only types of a type section add nothing to it. -/
theorem leaves_outside {f : Fields} {t : TypeTable} (known : ∀ type, f.CallsOutside type → type ∈ t.entries) :
    Leaves t (f.globals.mapM globalEntry) ∧ Leaves t (f.elems.mapM elemEntry) ∧
      Leaves t (f.data.mapM dataEntry) := by
  refine ⟨leaves_mapM fun g inside => ?_, leaves_mapM fun e inside => ?_, leaves_mapM fun d inside => ?_⟩
  · have init := leaves_expression fun type calls => known type (.inl ⟨g, inside, calls⟩)
    exact init.bind fun _ => leaves_pure _
  · have offset := leaves_expression fun type calls => known type (.inr (.inl ⟨e, inside, calls⟩))
    exact (leaves_lift _).bind fun _ => offset.bind fun _ => (leaves_lift _).bind fun _ => leaves_pure _
  · have offset := leaves_expression fun type calls => known type (.inr (.inr ⟨d, inside, calls⟩))
    exact (leaves_lift _).bind fun _ => offset.bind fun _ => leaves_pure _

/-- The type section is that of the imports and functions, since nothing is added after it is written. -/
theorem indexes_of_module {f : Fields} {bytes : List UInt8} {u : TypeTable}
    (written : Encode.module f ⟨f.declaredTypes, f.types.length⟩ = .ok (bytes, u))
    (known : ∀ t, f.CallsOutside t → f.Knows t) : ∃ types, Indexes f types bytes := by
  unfold Encode.module at written
  obtain ⟨importTypes, t₁, imports, written⟩ := Encode.bind_eq_ok_iff.1 written
  obtain ⟨funcTypes, t₂, signatures, written⟩ := Encode.bind_eq_ok_iff.1 written
  obtain ⟨bodies, t₃, code, written⟩ := Encode.bind_eq_ok_iff.1 written
  obtain ⟨_, _, last, written⟩ := Encode.bind_eq_ok_iff.1 written
  cases last
  obtain ⟨globals, t₄, inits, written⟩ := Encode.bind_eq_ok_iff.1 written
  obtain ⟨exports, t₅, exported, written⟩ := Encode.bind_eq_ok_iff.1 written
  obtain ⟨start, t₆, started, written⟩ := Encode.bind_eq_ok_iff.1 written
  obtain ⟨inline, t₇, inlined, written⟩ := Encode.bind_eq_ok_iff.1 written
  obtain ⟨elems, t₈, elements, written⟩ := Encode.bind_eq_ok_iff.1 written
  obtain ⟨data, t₉, segments, written⟩ := Encode.bind_eq_ok_iff.1 written
  obtain ⟨sections, -⟩ := Encode.pure_eq_ok_iff.1 written
  -- The type section is settled once the bodies are written.
  have begins : Begins f.declaredTypes ⟨f.declaredTypes, f.types.length⟩ :=
    ⟨(List.length_map _).symm, List.prefix_refl _⟩
  obtain ⟨begins, -, imported⟩ := begins.mapM settles_importType imports
  obtain ⟨begins, grown, declared⟩ := begins.mapM (fun g : Func => settles_typeIndex g.signature) signatures
  obtain ⟨begins, grown', defined⟩ := begins.mapM settles_body code
  have imported := imported t₃.entries (grown.trans grown')
  have declared := declared t₃.entries grown'
  have defined := defined t₃.entries (List.prefix_refl _)
  -- The parts after it call only types that it has, so that all of them are written for the same type section.
  obtain ⟨first, second, third⟩ := leaves_outside fun type calls =>
    mem_of_knows begins.entries imported declared defined (known type calls)
  obtain rfl := (first _ _ inits).symm
  obtain rfl := (leaves_mapM (fun e _ => leaves_lift (exportEntry e)) _ _ exported).symm
  obtain ⟨number, rfl⟩ := lift_eq_ok_iff.1 started
  obtain rfl := (leaves_mapM (fun t _ => leaves_lift (inlineElements t.2 t.1)) _ _ inlined).symm
  obtain rfl := (second _ _ elements).symm
  obtain rfl := (third _ _ segments).symm
  let p : Parts := ⟨importTypes, funcTypes, globals, exports, start, inline, elems, bodies, data⟩
  have assembled : p.assembled f t₃.entries = bytes := sections
  refine ⟨t₃.entries, assembled ▸ length_types_le p f _, p, assembled.symm, ?_⟩
  exact {
    imports := imported
    funcs := declared
    bodies := defined
    globals := (begins.mapM settles_globalEntry inits).2.2 _ (List.prefix_refl _)
    exports := (begins.mapM settles_exportEntry exported).2.2 _ (List.prefix_refl _)
    start := number
    inline := (begins.mapM settles_inlineElements inlined).2.2 _ (List.prefix_refl _)
    elems := (begins.mapM settles_elemEntry elements).2.2 _ (List.prefix_refl _)
    data := (begins.mapM settles_dataEntry segments).2.2 _ (List.prefix_refl _) }

/-- The type indices of a binary are in its type section and mean the signatures that they are written for, where the
initialisers and offsets call only types that are there without them. -/
theorem indexes_of_encode {m : Module} {bytes : List UInt8} (encoded : encode m = .ok bytes)
    (known : ∀ t, (Fields.ofModule m).CallsOutside t → (Fields.ofModule m).Knows t) :
    ∃ types, Indexes (.ofModule m) types bytes := by
  obtain ⟨⟨_, u⟩, written, rfl⟩ := (Outcome.bind_eq_ok_iff.trans
    (exists_congr fun _ => and_congr_right fun _ => Outcome.pure_eq_ok_iff)).1 encoded
  exact indexes_of_module written known

/-! ## A global that calls a type -/

/-- A module with a global whose initialiser calls a type indirectly, after other fields. -/
def callingGlobal (others : List Node) : Module :=
  ⟨none, others ++ [.global ⟨.i32, .const⟩ [.callIndirect (.inline ⟨[⟨none, .i64⟩], []⟩)]
    (some (.synthesized "global_0"))], none⟩

/-- A function that calls the same type in a loop. -/
def callingLoop : Node :=
  .func (.synthesized "func_0") (.inline ⟨[], []⟩) []
    [.loop (.synthesized "loop_0") none [.callIndirect (.inline ⟨[⟨some "x", .i64⟩], []⟩)]] none

/-- The type of the call in the initial value is in the type section, since a body calls through it as well. -/
theorem indexes_of_encode_callingLoop : ∃ bytes types, encode (callingGlobal [callingLoop]) = .ok bytes ∧
    Indexes (.ofModule (callingGlobal [callingLoop])) types bytes := by
  obtain ⟨bytes, encoded⟩ : ∃ bytes, encode (callingGlobal [callingLoop]) = .ok bytes := ⟨_, rfl⟩
  have known : ∀ t, (Fields.ofModule (callingGlobal [callingLoop])).CallsOutside t →
      (Fields.ofModule (callingGlobal [callingLoop])).Knows t := by
    rintro t (⟨g, listed, calls⟩ | ⟨e, listed, -⟩ | ⟨d, listed, -⟩)
    · obtain rfl := List.mem_singleton.1 listed
      obtain ⟨node, inside, s, calls, rfl⟩ := calls
      obtain rfl := List.mem_singleton.1 inside
      cases calls
      refine .inr (.inr (.inr ⟨_, List.mem_cons_self, ?_⟩))
      exact ⟨_, List.mem_cons_self, _, .loop List.mem_cons_self .here, rfl⟩
    · cases listed
    · cases listed
  obtain ⟨types, indexes⟩ := indexes_of_encode encoded known
  exact ⟨bytes, types, encoded, indexes⟩

/-- The type that only an initialiser calls is not in the type section. -/
theorem not_indexes_of_encode : ¬ ∀ m bytes, encode m = .ok bytes → ∃ types, Indexes (.ofModule m) types bytes := by
  intro all
  have encoded : encode (callingGlobal []) = .ok [0x00, 0x61, 0x73, 0x6d, 0x01, 0x00, 0x00, 0x00,
      0x06, 0x07, 0x01, 0x7f, 0x00, 0x11, 0x00, 0x00, 0x0b] := by decide +kernel
  obtain ⟨types, -, p, same, mean⟩ := all _ _ encoded
  obtain ⟨_, -, code, spelled, -⟩ := exists_of_forall₂ mean.globals.flip List.mem_cons_self
  have called : Signature.funcType ⟨[⟨none, .i64⟩], []⟩ ∈ types :=
    mem_of_callsType ⟨_, List.mem_cons_self, _, .here, rfl⟩ spelled
  cases types with
  | nil => cases called
  | cons t types =>
    -- A type section would begin where the section of the globals does.
    have byte := congrArg (·[8]?) same
    simp [Parts.assembled, vectorSection, Write.sectionOf, Write.preamble, SectionId.toByte] at byte
    exact absurd byte (by decide)

end WasmEngine.Binary
