import WasmEngine.Proofs.Binary.Instructions
import WasmEngine.Proofs.Syntax.Encodable

/-!
# Type sections that grow

Encoding adds entries to the type section and never changes those that are there, so that a part which
was encoded is encoded in the same way against the type section that all parts end with (`Grows`).
-/

namespace WasmEngine.Binary.Encode

open Decode Node Outcome

variable {α β : Type}

/-- A step succeeds, and against any extension of the type section that it leaves it gives the same again
and adds nothing. -/
def Grows (x : EncodeM α) : Prop := ∀ t : TypeTable, ∃ a t', x t = .ok (a, t') ∧
  t.entries <+: t'.entries ∧ ∀ u : TypeTable, t'.entries <+: u.entries → x u = .ok (a, u)

variable {x : EncodeM α} {f : α → EncodeM β} {u : TypeTable}

theorem grows_pure (a : α) : Grows (pure a : EncodeM α) :=
  fun t => ⟨a, t, rfl, List.prefix_refl _, fun _ _ => rfl⟩

/-- Two steps in a row only add types. -/
theorem Grows.bind (first : Grows x) (rest : ∀ a, Grows (f a)) : Grows (x >>= f) := by
  intro t
  obtain ⟨a, t', here, grown, again⟩ := first t
  obtain ⟨b, t'', there, grown', again'⟩ := rest a t'
  refine ⟨b, t'', (encode_bind here).trans there, grown.trans grown', fun u extends_ => ?_⟩
  exact (encode_bind (again u (grown'.trans extends_))).trans (again' u extends_)

theorem grows_lift {r : Except EncodeError α} {a : α} (succeeds : r = .ok a) :
    Grows (liftM r : EncodeM α) :=
  fun t => ⟨a, t, encode_lift succeeds, List.prefix_refl _, fun _ _ => encode_lift succeeds⟩

theorem grows_mapM {g : α → EncodeM β} {as : List α} (each : ∀ a ∈ as, Grows (g a)) :
    Grows (as.mapM g) := by
  induction as with
  | nil => exact grows_pure []
  | cons a as ih =>
    obtain ⟨first, others⟩ := List.forall_mem_cons.1 each
    rw [List.mapM_cons]
    exact first.bind fun b => (ih others).bind fun bs => grows_pure _

/-- The signature in place is where its type comes first, or comes last. -/
theorem grows_typeIndex {sig : SignatureRef} (inline : sig.IsInline) : Grows (typeIndex sig) := by
  obtain ⟨s, rfl⟩ := inline
  have stays (t u : TypeTable) {i : Nat} (found : t.entries.findIdx? (· == s.funcType) = some i)
      (extends_ : t.entries <+: u.entries) : typeIndex (.inline s) u = .ok (i, u) := by
    obtain ⟨more, same⟩ := extends_
    have here : u.entries.findIdx? (· == s.funcType) = some i := by
      rw [← same, List.findIdx?_append, found, Option.some_or]
    simp only [typeIndex, here]
  intro t
  cases found : t.entries.findIdx? (· == s.funcType) with
  | some i => exact ⟨i, t, stays t t found (List.prefix_refl _), List.prefix_refl _,
      fun u => stays t u found⟩
  | none =>
    have last : (t.entries ++ [s.funcType]).findIdx? (· == s.funcType) = some t.entries.length := by
      rw [List.findIdx?_append, found, Option.none_or]
      simp
    exact ⟨t.entries.length, { t with entries := t.entries ++ [s.funcType] },
      by simp only [typeIndex, found], List.prefix_append ..,
      fun u => stays { t with entries := t.entries ++ [s.funcType] } u last⟩

/-! ## Against the last type section -/

/-- Both parts of a step that adds nothing add nothing. -/
theorem Grows.of_bind {b : β} (first : Grows x) (rest : ∀ a, Grows (f a))
    (settled : (x >>= f) u = .ok (b, u)) : ∃ a, x u = .ok (a, u) ∧ f a u = .ok (b, u) := by
  obtain ⟨a, t, here, grown, again⟩ := first u
  obtain ⟨b', t', there, grown', -⟩ := rest a t
  rw [encode_bind here, there] at settled
  cases settled
  have same := (Prod.mk.inj (Except.ok.inj ((again u grown').symm.trans here))).2
  subst same
  exact ⟨a, here, there⟩

/-- If the type section is closed under a list of items, then it is under each. -/
theorem settled_of_mapM {g : α → EncodeM β} {as : List α} (each : ∀ a ∈ as, Grows (g a))
    {bs : List β} (settled : as.mapM g u = .ok (bs, u)) : ∀ a ∈ as, ∃ b, g a u = .ok (b, u) := by
  induction as generalizing bs with
  | nil => exact nofun
  | cons a as ih =>
    obtain ⟨first, others⟩ := List.forall_mem_cons.1 each
    rw [List.mapM_cons] at settled
    obtain ⟨b, here, settled⟩ := first.of_bind
      (fun b => (grows_mapM others).bind fun bs => grows_pure _) settled
    obtain ⟨bs, there, -⟩ := (grows_mapM others).of_bind (fun bs => grows_pure _) settled
    exact List.forall_mem_cons.2 ⟨⟨b, here⟩, ih others there⟩

/-! ## Steps without signatures -/

/-- A step that does not depend on the type section and adds nothing to it. -/
def Fixed (x : EncodeM α) : Prop := ∃ a, ∀ t, x t = .ok (a, t)

theorem fixed_pure (a : α) : Fixed (pure a : EncodeM α) := ⟨a, fun _ => rfl⟩

/-- Two steps in a row that change nothing. -/
theorem Fixed.bind (first : Fixed x) (rest : ∀ a, Fixed (f a)) : Fixed (x >>= f) := by
  obtain ⟨a, here⟩ := first
  obtain ⟨b, there⟩ := rest a
  exact ⟨b, fun t => (encode_bind (here t)).trans (there t)⟩

theorem fixed_lift {r : Except EncodeError α} {a : α} (succeeds : r = .ok a) :
    Fixed (liftM r : EncodeM α) := ⟨a, fun _ => encode_lift succeeds⟩

/-- Items that change nothing, one after the other. -/
theorem fixed_mapM {g : α → EncodeM β} {as : List α} (each : ∀ a ∈ as, Fixed (g a)) :
    Fixed (as.mapM g) := by
  induction as with
  | nil => exact fixed_pure []
  | cons a as ih =>
    obtain ⟨first, others⟩ := List.forall_mem_cons.1 each
    rw [List.mapM_cons]
    exact first.bind fun b => (ih others).bind fun bs => fixed_pure _

/-! ## Instructions -/

/-- A sequence of plain instructions with a binary form. -/
def IsPlainCode (ref : Index → Prop) (nodes : List Node) : Prop :=
  EncodableIn ref SignatureRef.IsInline nodes ∧ ∀ node ∈ nodes, node.IsPlain

section Instructions

variable {ref : Index → Prop} (numeric : ∀ i, ref i → i.IsNumber)
include numeric

/-- A numeric reference has an encoding. -/
theorem index_of_numeric {i : Index} (holds : ref i) : ∃ n, index i = .ok n := by
  obtain ⟨n, rfl⟩ := numeric i holds
  exact ⟨_, rfl⟩

theorem indices_of_numeric {is : List Index} (all : ∀ i ∈ is, ref i) :
    ∃ ns, is.mapM index = .ok ns := by
  induction is with
  | nil => exact ⟨[], rfl⟩
  | cons i is ih =>
    obtain ⟨first, others⟩ := List.forall_mem_cons.1 all
    obtain ⟨n, here⟩ := index_of_numeric numeric first
    obtain ⟨ns, there⟩ := ih others
    exact ⟨n :: ns, by rw [List.mapM_cons, here, there]; rfl⟩

/-- Labels that are numeric have an encoding. -/
theorem labels_of_numeric {is : List Index} (all : ∀ i ∈ is, ref i) (invalid : EncodeError) :
    (is.map ofIndex).mapM (fun arg => indexArg invalid (some arg)) =
      (do return (← is.mapM index).map u32) := by
  induction is with
  | nil => rfl
  | cons i is ih =>
    obtain ⟨first, others⟩ := List.forall_mem_cons.1 all
    obtain ⟨n, rfl⟩ := numeric i first
    obtain ⟨ns, there⟩ := indices_of_numeric numeric others
    rw [List.map_cons, List.mapM_cons, List.mapM_cons, ih others, there]
    rfl

/-- Arguments without names can be written. -/
theorem immediates_of_numeric {op : Opcode} {args : List Node} {memArg : Option MemArg}
    (operands : Operands ref op.immediate args memArg) :
    ∃ bytes, ∀ invalid, immediates op invalid args memArg = .ok bytes := by
  cases kind : op.immediate with
  | index =>
    rw [kind] at operands
    cases operands with
    | index holds =>
      obtain ⟨n, rfl⟩ := numeric _ holds
      exact ⟨_, fun invalid => by simp only [immediates, kind]; rfl⟩
  | brTable =>
    rw [kind] at operands
    cases operands with
    | @brTable is some_ all =>
      obtain ⟨ns, there⟩ := indices_of_numeric numeric all
      have filled : (is.map ofIndex).isEmpty = false := by
        cases is with
        | nil => exact absurd rfl some_
        | cons => rfl
      refine ⟨u32 (is.length - 1) ++ (ns.map u32).flatten, fun invalid => ?_⟩
      simp only [immediates, kind, filled, Bool.false_eq_true, if_false,
        labels_of_numeric numeric all, there, List.length_map]
      rfl
  | none | memoryReserved | memArg | i32 | i64 | f32 | f64 =>
    rw [kind] at operands
    cases operands
    exact ⟨_, fun invalid => by simp only [immediates, kind]; rfl⟩
  | block | callIndirect =>
    rw [kind] at operands
    cases operands

/-- A plain instruction with numeric operands has an encoding. -/
theorem plain_of_numeric {op : Opcode} (listed : op ∈ Opcode.table) (notEnd : op.byte ≠ endByte)
    {args : List Node} {memArg : Option MemArg}
    (operands : Operands ref op.immediate args memArg) :
    ∃ bytes, plain op.name op.object args memArg = .ok bytes := by
  obtain ⟨bytes, encodes⟩ := immediates_of_numeric numeric operands
  exact ⟨_, encode_plain listed notEnd encodes⟩

omit numeric in
theorem grows_of_all {nodes : List Node} (each : ∀ node ∈ nodes, Grows (instruction node)) :
    Grows (instructions nodes) := by
  induction nodes with
  | nil => exact grows_pure []
  | cons node nodes ih =>
    obtain ⟨first, others⟩ := List.forall_mem_cons.1 each
    rw [instructions]
    exact first.bind fun here => (ih others).bind fun rest => grows_pure _

theorem grows_instruction {node : Node} {depth : Nat}
    (encodable : node.Encodable ref SignatureRef.IsInline depth) : Grows (instruction node) := by
  induction encodable with
  | instr listed notEnd _ _ operands =>
    obtain ⟨bytes, written⟩ := plain_of_numeric numeric listed notEnd operands
    rw [instruction]
    exact grows_lift written
  | block _ _ ih | loop _ _ ih =>
    rw [instruction]
    exact (grows_of_all ih).bind fun _ => grows_pure _
  | ifElse _ _ _ ihTrue ihFalse =>
    rw [instruction]
    exact (grows_of_all ihTrue).bind fun _ => (grows_of_all ihFalse).bind fun _ => grows_pure _
  | call holds =>
    obtain ⟨n, written⟩ := index_of_numeric numeric holds
    rw [instruction]
    exact (grows_lift written).bind fun _ => grows_pure _
  | callIndirect inline =>
    rw [instruction]
    exact (grows_typeIndex inline).bind fun _ => grows_pure _

theorem grows_instructions {nodes : List Node} {depth : Nat}
    (encodable : ∀ node ∈ nodes, node.Encodable ref SignatureRef.IsInline depth) :
    Grows (instructions nodes) :=
  grows_of_all fun node inside => grows_instruction numeric (encodable node inside)

theorem grows_expression {nodes : List Node} (encodable : EncodableIn ref SignatureRef.IsInline nodes) :
    Grows (expression nodes) :=
  (grows_instructions numeric encodable).bind fun _ => grows_pure _

/-- An expression with numeric operands changes nothing once its types are listed. -/
theorem fixed_expression {nodes : List Node} (code : IsPlainCode ref nodes) :
    Fixed (expression nodes) := by
  obtain ⟨encodable, plain⟩ := code
  refine Fixed.bind ?_ fun _ => fixed_pure _
  induction nodes with
  | nil => exact fixed_pure []
  | cons node nodes ih =>
    obtain ⟨first, others⟩ := List.forall_mem_cons.1 plain
    obtain ⟨here, there⟩ := List.forall_mem_cons.1 encodable
    rw [instructions]
    refine Fixed.bind ?_ fun _ => (ih there others).bind fun _ => fixed_pure _
    cases here with
    | instr listed notEnd _ _ operands =>
      obtain ⟨bytes, written⟩ := plain_of_numeric numeric listed notEnd operands
      rw [instruction]
      exact fixed_lift written
    | _ => cases first

end Instructions

/-! ## Modules -/

/-- The fields of a module have a binary form, where references have a property.  The expressions outside
of functions are plain instructions. -/
structure Fields.Encodable (ref : Index → Prop) (f : Fields) : Prop where
  imports : ∀ i ∈ f.imports, i.descr.IsWritten SignatureRef.IsInline
  signatures : ∀ g ∈ f.funcs, g.signature.IsInline
  bodies : ∀ g ∈ f.funcs, EncodableIn ref SignatureRef.IsInline g.body
  tables : ∀ t ∈ f.tables, IsLimits t.limits ∨ t.limits = .ofElements t.elements.length
  elements : ∀ t ∈ f.tables, ∀ i ∈ t.elements, ref i
  memories : ∀ m ∈ f.memories, IsLimits m.limits ∨
    ∃ d ∈ f.data, m.limits = .ofBytes d.2.2.length
  inits : ∀ g ∈ f.globals, IsPlainCode ref g.2
  exports : ∀ e ∈ f.exports, ref e.descr.id
  starts : ∀ i ∈ f.starts, ref i
  elems : ∀ e ∈ f.elems, ref e.1 ∧ IsPlainCode ref e.2.1 ∧ ∀ i ∈ e.2.2, ref i
  data : ∀ d ∈ f.data, ref d.1 ∧ IsPlainCode ref d.2.1

/-- The signatures of a module have their place in the type section. -/
structure Settled (f : Fields) (u : TypeTable) : Prop where
  imports : ∀ i ∈ f.imports, ∃ n, importType i u = .ok (n, u)
  signatures : ∀ g ∈ f.funcs, ∃ n, typeIndex g.signature u = .ok (n, u)
  bodies : ∀ g ∈ f.funcs, ∃ bytes, body g u = .ok (bytes, u)

section Modules

variable {ref : Index → Prop} {f : Fields}

theorem grows_importType {i : ModuleImport} (written : i.descr.IsWritten SignatureRef.IsInline) :
    Grows (importType i) := by
  unfold importType
  split
  · next d same =>
    rw [same] at written
    exact grows_typeIndex written
  · exact grows_pure 0

/-- What is written after the signatures have got their places depends on these and on the type section. -/
theorem exists_written (numeric : ∀ i, ref i → i.IsNumber) (encodable : f.Encodable ref)
    (importTypes funcTypes : List Nat) (bodies : List (List UInt8)) :
    ∃ written : List FuncType → List UInt8, ∀ t t₁ t₂ u,
      f.imports.mapM importType t = .ok (importTypes, t₁) →
      (f.funcs.mapM fun g => typeIndex g.signature) t₁ = .ok (funcTypes, t₂) →
      f.funcs.mapM body t₂ = .ok (bodies, u) → module f t = .ok (written u.entries, u) := by
  have globals : Fixed (f.globals.mapM globalEntry) := fixed_mapM fun g listed =>
    (fixed_expression numeric (encodable.inits g listed)).bind fun _ => fixed_pure _
  have exports : Fixed (f.exports.mapM fun e => (liftM (exportEntry e) : EncodeM _)) :=
    fixed_mapM fun e listed => by
      obtain ⟨n, number⟩ := index_of_numeric numeric (encodable.exports e listed)
      exact fixed_lift (by rw [exportEntry, number]; rfl)
  have start : Fixed (liftM (startSection f.starts) : EncodeM _) := by
    unfold startSection
    split
    · next i last =>
      obtain ⟨n, number⟩ := index_of_numeric numeric
        (encodable.starts i (List.mem_of_getLast? last))
      exact fixed_lift (by rw [number]; rfl)
    · exact fixed_lift rfl
  have inline : Fixed ((f.tables.zipIdx f.importedTables).mapM fun t =>
      (liftM (inlineElements t.2 t.1) : EncodeM _)) := fixed_mapM fun t listed => by
    obtain ⟨ns, numbers⟩ := indices_of_numeric numeric
      (encodable.elements t.1 (List.fst_mem_of_mem_zipIdx listed))
    have segment : ∃ segment, inlineElements t.2 t.1 = .ok segment := by
      unfold inlineElements indices
      split
      · exact ⟨none, rfl⟩
      · rw [numbers]
        exact ⟨_, rfl⟩
    exact fixed_lift segment.choose_spec
  have elems : Fixed (f.elems.mapM elemEntry) := fixed_mapM fun e listed => by
    obtain ⟨target, offset, all⟩ := encodable.elems e listed
    obtain ⟨n, number⟩ := index_of_numeric numeric target
    obtain ⟨ns, numbers⟩ := indices_of_numeric numeric all
    exact (fixed_lift number).bind fun _ => (fixed_expression numeric offset).bind fun _ =>
      (fixed_lift (by rw [indices, numbers]; rfl)).bind fun _ => fixed_pure _
  have data : Fixed (f.data.mapM dataEntry) := fixed_mapM fun d listed => by
    obtain ⟨target, offset⟩ := encodable.data d listed
    obtain ⟨n, number⟩ := index_of_numeric numeric target
    exact (fixed_lift number).bind fun _ => (fixed_expression numeric offset).bind fun _ =>
      fixed_pure _
  obtain ⟨gs, globals⟩ := globals
  obtain ⟨es, exports⟩ := exports
  obtain ⟨ss, start⟩ := start
  obtain ⟨ie, inline⟩ := inline
  obtain ⟨el, elems⟩ := elems
  obtain ⟨ds, data⟩ := data
  have state (t : TypeTable) : (get : EncodeM TypeTable) t = .ok (t, t) := rfl
  refine ⟨fun types => Write.preamble
    ++ vectorSection .type (types.map funcType)
    ++ vectorSection .imports (f.imports.zipWith importEntry importTypes)
    ++ vectorSection .function (funcTypes.map u32)
    ++ vectorSection .table (f.tables.map tableType)
    ++ vectorSection .memory (f.memories.map fun m => limits m.limits)
    ++ vectorSection .global gs
    ++ vectorSection .exports es
    ++ ss
    ++ vectorSection .element (ie.filterMap id ++ el)
    ++ vectorSection .code (bodies.map Write.byteVector)
    ++ vectorSection .data ds
    ++ nameSection f.importedFuncs f.funcs, fun t t₁ t₂ u first second third => ?_⟩
  rw [module, encode_bind first, encode_bind second, encode_bind third, encode_bind (state u),
    encode_bind (globals u), encode_bind (exports u), encode_bind (start u), encode_bind (inline u),
    encode_bind (elems u), encode_bind (data u)]
  rfl

/-- What is written of a module against the type section that it ends with. -/
theorem exists_settled (numeric : ∀ i, ref i → i.IsNumber) (encodable : f.Encodable ref)
    (t : TypeTable) : ∃ bytes u, module f t = .ok (bytes, u) ∧ t.entries <+: u.entries ∧
      ∀ v : TypeTable, v.entries = u.entries → module f v = .ok (bytes, v) ∧ Settled f v := by
  have imports : ∀ i ∈ f.imports, Grows (importType i) := fun i listed =>
    grows_importType (encodable.imports i listed)
  have signatures : ∀ g ∈ f.funcs, Grows (typeIndex g.signature) := fun g listed =>
    grows_typeIndex (encodable.signatures g listed)
  have bodies : ∀ g ∈ f.funcs, Grows (body g) := fun g listed =>
    (grows_expression numeric (encodable.bodies g listed)).bind fun _ => grows_pure _
  obtain ⟨its, t₁, first, grown₁, again₁⟩ := grows_mapM imports t
  obtain ⟨fts, t₂, second, grown₂, again₂⟩ := grows_mapM signatures t₁
  obtain ⟨bs, u, third, grown₃, again₃⟩ := grows_mapM bodies t₂
  obtain ⟨written, rest⟩ := exists_written numeric encodable its fts bs
  refine ⟨written u.entries, u, rest t t₁ t₂ u first second third,
    grown₁.trans (grown₂.trans grown₃), fun v same => ?_⟩
  rw [← same] at grown₃ ⊢
  have first' := again₁ v (grown₂.trans grown₃)
  have second' := again₂ v grown₃
  have third' := again₃ v (same ▸ List.prefix_refl _)
  exact ⟨rest v v v v first' second' third', settled_of_mapM imports first',
    settled_of_mapM signatures second', settled_of_mapM bodies third'⟩

end Modules

end WasmEngine.Binary.Encode
