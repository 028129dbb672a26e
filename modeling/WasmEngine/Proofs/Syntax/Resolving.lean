import WasmEngine.Proofs.Syntax.Everywhere
import WasmEngine.Proofs.Syntax.References

/-!
# Resolving makes programs explicit

Inlining puts a signature in place of every reference and leaves literals alone, and so does replacing
names by numbers.  A program that is read with its literals is explicit once it is resolved.
-/

namespace WasmEngine

open Node Outcome

/-! ## Inlining -/

namespace TypeReference

variable {types : List TypeDef}

/-- Inlining a reference leaves a signature. -/
theorem isInline_of_inlineRef {sig sig' : SignatureRef} (inlined : inlineRef types sig = .ok sig') :
    sig'.IsInline := by
  cases sig with
  | inline s =>
    cases inlined
    exact ⟨s, rfl⟩
  | ref index =>
    simp only [inlineRef] at inlined
    split at inlined
    · next t found =>
      cases inlined
      exact ⟨t.functype, rfl⟩
    · cases inlined

/-- A literal is no reference. -/
theorem inline_literal {t : Valtype} {literal : Node} {v : Value}
    (value : Value.ofLiteral t literal = .ok v) : inline types literal = .ok literal := by
  unfold Value.ofLiteral at value
  split at value <;> first
    | rfl
    | cases value

/-- Inlining leaves the literals of instructions. -/
theorem hasLiteral_of_inlineAll {id : String} {object : Option Valtype} {args args' : List Node}
    {memArg : Option MemArg} (literal : HasLiteral (.instr id object args memArg))
    (inlined : inlineAll types args = .ok args') :
    HasLiteral (.instr id object args' memArg) := by
  cases object with
  | none => trivial
  | some t =>
    intro isConst
    obtain ⟨l, v, head, value⟩ := literal isConst
    cases args with
    | nil => cases head
    | cons arg args =>
      obtain rfl := Option.some.inj head
      rw [inlineAll, inline_literal value] at inlined
      obtain ⟨_, ⟨⟩, inlined⟩ := bind_eq_ok_iff.1 inlined
      obtain ⟨rest, -, inlined⟩ := bind_eq_ok_iff.1 inlined
      obtain rfl := pure_eq_ok_iff.1 inlined
      exact ⟨arg, v, rfl, value⟩

mutual

/-- Inlining makes a node with literals explicit. -/
theorem explicit_of_inline {node node' : Node} (literals : node.Every HasLiteral)
    (inlined : inline types node = .ok node') : node'.Every Explicit := by
  cases inlines_of_inline inlined with
  | program inner | module inner => exact explicit_of_inlineAll literals inner
  | func signature inner => exact ⟨⟨trivial, isInline_of_inlineRef signature⟩, explicit_of_inlineAll literals.2 inner⟩
  | instr inner => exact ⟨hasLiteral_of_inlineAll literals inner, trivial⟩
  | block inner | loop inner | global inner | elem inner | data inner =>
    exact ⟨⟨trivial, trivial⟩, explicit_of_inlineAll literals.2 inner⟩
  | ifElse whenTrue whenFalse =>
    exact ⟨⟨trivial, trivial⟩, explicit_of_inlineAll literals.2.1 whenTrue,
      explicit_of_inlineAll literals.2.2 whenFalse⟩
  | callIndirect signature | importedFunc signature => exact ⟨trivial, isInline_of_inlineRef signature⟩
  | funcImport => exact ⟨trivial, trivial⟩
  | other unvisited =>
    cases node with
    | program | module | func | instr | block | loop | ifElse | callIndirect | global | elem | data | funcImport =>
      cases unvisited
    | moduleImport decl =>
      obtain ⟨m, name, descr, id⟩ := decl
      cases descr with
      | func => cases unvisited
      | _ => exact ⟨trivial, trivial⟩
    | _ => exact ⟨trivial, trivial⟩

theorem explicit_of_inlineAll : ∀ {nodes nodes' : List Node}, EveryIn HasLiteral nodes →
    inlineAll types nodes = .ok nodes' → EveryIn Explicit nodes'
  | [], nodes', _, inlined => by
    obtain rfl := pure_eq_ok_iff.1 inlined
    trivial
  | node :: nodes, nodes', literals, inlined => by
    rw [inlineAll] at inlined
    obtain ⟨first, head, inlined⟩ := bind_eq_ok_iff.1 inlined
    obtain ⟨rest, tail, inlined⟩ := bind_eq_ok_iff.1 inlined
    obtain rfl := pure_eq_ok_iff.1 inlined
    exact ⟨explicit_of_inline literals.1 head, explicit_of_inlineAll literals.2 tail⟩

end

end TypeReference

/-! ## Replacing names -/

namespace Scope

variable {s : Scope}

/-- The arguments of a constant hold no name that is replaced. -/
theorem explicit_of_args {id : String} {object : Option Valtype} {args args' : List Node}
    {memArg : Option MemArg} (explicit : Explicit (.instr id object args memArg))
    (replaced : s.args id args = .ok args') : Explicit (.instr id object args' memArg) := by
  refine ⟨?_, trivial⟩
  cases object with
  | none => trivial
  | some t =>
    rintro rfl
    have same : Except.ok args = .ok args' := replaced
    cases same
    exact explicit.1 rfl

mutual

/-- Resolving names keeps a node explicit. -/
theorem explicit_of_instr {node node' : Node} {s : Scope} (explicit : node.Every Explicit)
    (replaced : s.instr node = .ok node') : node'.Every Explicit := by
  cases replaces_of_instr replaced with
  | instr inner => exact explicit_of_args explicit inner
  | call => exact ⟨trivial, trivial⟩
  | block inner | loop inner => exact ⟨⟨trivial, trivial⟩, explicit_of_body explicit.2 inner⟩
  | ifElse whenTrue whenFalse =>
    exact ⟨⟨trivial, trivial⟩, explicit_of_body explicit.2.1 whenTrue, explicit_of_body explicit.2.2 whenFalse⟩
  | other => exact explicit

theorem explicit_of_body : ∀ {nodes nodes' : List Node} {s : Scope}, EveryIn Explicit nodes →
    s.body nodes = .ok nodes' → EveryIn Explicit nodes'
  | [], nodes', s, _, replaced => by
    obtain rfl := pure_eq_ok_iff.1 replaced
    trivial
  | node :: nodes, nodes', s, explicit, replaced => by
    rw [body] at replaced
    obtain ⟨first, head, replaced⟩ := bind_eq_ok_iff.1 replaced
    obtain ⟨rest, tail, replaced⟩ := bind_eq_ok_iff.1 replaced
    obtain rfl := pure_eq_ok_iff.1 replaced
    exact ⟨explicit_of_instr explicit.1 head, explicit_of_body explicit.2 tail⟩

end

/-- Resolving names keeps a field explicit. -/
theorem explicit_of_field {node node' : Node} (explicit : node.Every Explicit)
    (replaced : s.field node = .ok node') : node'.Every Explicit := by
  cases replaces_of_field replaced with
  | func inner => exact ⟨⟨trivial, explicit.1.2⟩, explicit_of_body explicit.2 inner⟩
  | global inner | elem _ inner _ | data _ inner =>
    exact ⟨⟨trivial, trivial⟩, explicit_of_body explicit.2 inner⟩
  | start | moduleExport | table => exact ⟨trivial, trivial⟩
  | other => exact explicit

theorem explicit_of_fields {nodes nodes' : List Node} (explicit : EveryIn Explicit nodes)
    (replaced : nodes.mapM s.field = .ok nodes') : EveryIn Explicit nodes' := by
  refine everyIn_iff.2 fun node' inside => ?_
  obtain ⟨node, listed, here⟩ := exists_of_forall₂ (forall₂_of_mapM replaced) inside
  exact explicit_of_field (everyIn_iff.1 explicit node listed) here

end Scope

/-- A module with its literals is explicit once it is resolved. -/
theorem Module.explicit_of_resolve {m m' : Module} (literals : EveryIn HasLiteral m.fields)
    (resolved : m.resolve = .ok m') : EveryIn Explicit m'.fields := by
  obtain ⟨inlined, first, resolved⟩ := bind_eq_ok_iff.1 resolved
  obtain ⟨fields, inner, first⟩ := bind_eq_ok_iff.1 first
  obtain rfl := pure_eq_ok_iff.1 first
  obtain ⟨fields', replaced, resolved⟩ := bind_eq_ok_iff.1 resolved
  obtain rfl := pure_eq_ok_iff.1 resolved
  exact Scope.explicit_of_fields (TypeReference.explicit_of_inlineAll literals inner) replaced

end WasmEngine
