import WasmEngine.Proofs.Binary.FieldCode
import WasmEngine.Proofs.Syntax.Everywhere

/-!
# Bytes are read with their literals

Every constant of a module that is read from bytes has a literal of its type.
-/

namespace WasmEngine.Binary

open Node Decode

namespace Decode

theorem gives_simple {op : Opcode} (listed : op ∈ Opcode.table) :
    Gives (Every HasLiteral) (simple op) := by
  have plain (immediate : op.immediate.isLiteral = false) (args : List Node)
      (memArg : Option MemArg) : Gives (Every HasLiteral) (pure (plain op args memArg)) :=
    gives_pure (hasLiteral_of_plain listed immediate args memArg)
  have constant {t : Valtype} (immediate : op.immediate = .literal t) {literal : Node} {v : Value}
      (value : Value.ofLiteral t literal = .ok v) :
      Gives (Every HasLiteral) (pure (Decode.plain op [literal] none)) := by
    refine gives_pure (hasLiteral_instr listed fun t' isLiteral => ⟨literal, v, rfl, ?_⟩)
    rw [immediate] at isLiteral
    cases t <;> cases t' <;> first | exact value | cases isLiteral
  cases kind : op.immediate with
  | none => simp only [simple, kind]; exact plain (by rw [kind]; rfl) _ _
  | block => simp only [simple, kind]; exact plain (by rw [kind]; rfl) _ _
  | index =>
    simp only [simple, kind]
    refine Gives.then fun index => ?_
    split
    · exact gives_pure trivial
    · exact plain (by rw [kind]; rfl) _ _
  | brTable =>
    simp only [simple, kind]
    exact Gives.then fun count => Gives.then fun labels => plain (by rw [kind]; rfl) _ _
  | callIndirect =>
    simp only [simple, kind]
    refine Gives.then fun start => Gives.then fun index => Gives.then fun d => ?_
    split
    · exact gives_failAt
    · exact Gives.then fun _ => gives_pure trivial
  | memArg =>
    simp only [simple, kind]
    exact Gives.then fun align => Gives.then fun offset => plain (by rw [kind]; rfl) _ _
  | memoryReserved =>
    simp only [simple, kind]
    exact Gives.then fun _ => plain (by rw [kind]; rfl) _ _
  | i32 => simp only [simple, kind]; exact Gives.then fun value => constant (t := .i32) kind rfl
  | i64 => simp only [simple, kind]; exact Gives.then fun value => constant (t := .i64) kind rfl
  | f32 => simp only [simple, kind]; exact Gives.then fun bits => constant (t := .f32) kind rfl
  | f64 => simp only [simple, kind]; exact Gives.then fun bits => constant (t := .f64) kind rfl

/-- Instructions that hold their literals are closed under what the decoder puts together. -/
theorem closed_literals : Closed fun _ => EveryIn HasLiteral where
  nil _ := everyIn_nil
  cons first rest := ⟨first.1, rest⟩
  simple listed _ := (gives_simple listed).imp fun _ literal => ⟨literal, everyIn_nil⟩
  block _ _ _ inside := ⟨⟨trivial, inside⟩, everyIn_nil⟩
  loop _ _ _ inside := ⟨⟨trivial, inside⟩, everyIn_nil⟩
  ifElse _ _ _ whenTrue whenFalse := ⟨⟨trivial, whenTrue, whenFalse⟩, everyIn_nil⟩

end Decode

/-- A field whose code holds its literals holds them everywhere. -/
theorem everyIn_of_codeHas {field : Node} (has : field.CodeHas (EveryIn HasLiteral)) : field.Every HasLiteral := by
  cases field with
  | func | global | elem | data => exact ⟨trivial, has⟩
  | typeDef | moduleImport | table | memory | start | moduleExport => trivial
  | _ => exact has.elim

/-- Every constant of a module that is read from bytes has a literal of its type. -/
theorem literals_of_decode {options : DecoderOptions} {bytes : List UInt8} {p : Program}
    (decoded : decode options bytes = .ok p) : EveryIn HasLiteral p.body := by
  obtain ⟨fields, metadata, rfl, each⟩ := code_of_decode (gives_expression closed_literals) everyIn_nil decoded
  exact ⟨everyIn_iff.2 fun field inside => everyIn_of_codeHas (each field inside), trivial⟩

end WasmEngine.Binary
