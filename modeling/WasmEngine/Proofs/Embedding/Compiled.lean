import WasmEngine.Embedding.Engine
import WasmEngine.Proofs.Binary.Literals
import WasmEngine.Proofs.Embedding.Allocation
import WasmEngine.Proofs.Syntax.Resolving
import WasmEngine.Proofs.Typing.Decision
import WasmEngine.Proofs.Wat.Literals

/-!
# Compiled modules are checked

A module that the engine accepts, read from bytes or from a text, has its literals and signatures in
place, has functions of their types, and imports no global that can change (`Compiled.checked`).
-/

namespace WasmEngine

open Node Outcome Typing

/-! ## Programs -/

namespace Program

/-- What holds everywhere in a node holds everywhere in the module that it is. -/
theorem everyIn_of_module? {p : Node → Prop} {node : Node} {m : Module}
    (every : node.Every p) (here : node.module? = some m) : EveryIn p m.fields := by
  cases node <;> cases here
  exact every

theorem module?_toNode (m : Module) : m.toNode.module? = some m := rfl

/-- A resolved module stands where its unresolved one stood. -/
theorem mem_of_mapModules {nodes nodes' : List Node}
    (mapped : mapModules Module.resolve nodes = .ok nodes') {node' : Node} (listed : node' ∈ nodes')
    {m' : Module} (here : node'.module? = some m') :
    ∃ node ∈ nodes, ∃ m, node.module? = some m ∧ m.resolve = .ok m' := by
  induction nodes generalizing nodes' with
  | nil =>
    cases mapped
    cases listed
  | cons node nodes ih =>
    unfold mapModules at mapped
    cases found : node.module? with
    | none =>
      cases rest : mapModules Module.resolve nodes with
      | error e =>
        simp only [found, rest] at mapped
        cases mapped
      | ok others =>
        simp only [found, rest] at mapped
        cases mapped
        obtain rfl | later := List.mem_cons.1 listed
        · rw [found] at here
          cases here
        · obtain ⟨node, inside, others⟩ := ih rest later
          exact ⟨node, List.mem_cons_of_mem _ inside, others⟩
    | some m =>
      cases resolved : m.resolve with
      | error e =>
        simp only [found, resolved] at mapped
        cases mapped
      | ok r =>
        cases rest : mapModules Module.resolve nodes with
        | error e =>
          simp only [found, resolved, rest] at mapped
          cases mapped
        | ok others =>
          simp only [found, resolved, rest] at mapped
          cases mapped
          obtain rfl | later := List.mem_cons.1 listed
          · obtain rfl : r = m' := Option.some.inj here
            exact ⟨node, List.mem_cons_self .., m, found, resolved⟩
          · obtain ⟨node, inside, others⟩ := ih rest later
            exact ⟨node, List.mem_cons_of_mem _ inside, others⟩

/-- Each of the modules that were checked passed. -/
theorem validate_of_validateAll {nodes : List Node} (passes : validateAll nodes = .ok ())
    {node : Node} (listed : node ∈ nodes) {m : Module} (here : node.module? = some m) :
    m.validate = .ok () := by
  induction nodes with
  | nil => cases listed
  | cons first nodes ih =>
    unfold validateAll at passes
    cases found : first.module? with
    | none =>
      simp only [found] at passes
      obtain rfl | later := List.mem_cons.1 listed
      · rw [found] at here
        cases here
      · exact ih passes later
    | some n =>
      simp only [found, bind_eq_ok_iff] at passes
      obtain ⟨⟨⟩, now, rest⟩ := passes
      obtain rfl | later := List.mem_cons.1 listed
      · rw [found] at here
        cases here
        exact now
      · exact ih rest later

end Program

/-! ## Validation -/

namespace Typing

variable {ctx : ModuleContext}

/-- Checking the initialisers is checking each of them. -/
theorem checkInitialisers_eq_ok_iff {m : Module} : checkInitialisers ctx m.fields = .ok () ↔
    ∀ g ∈ (Binary.Encode.Fields.ofModule m).globals, checkInitialiser ctx g.1 g.2 = .ok () := by
  show _ ↔ ∀ g ∈ m.fields.filterMap _, _
  induction m.fields with
  | nil => exact ⟨fun _ => List.forall_mem_nil _, fun _ => rfl⟩
  | cons field fields ih =>
    cases field with
    | global type init name =>
      rw [checkInitialisers, List.filterMap_cons, List.forall_mem_cons, ← ih, bind_eq_ok_iff]
      constructor
      · rintro ⟨⟨⟩, first, rest⟩
        exact ⟨first, rest⟩
      · rintro ⟨first, rest⟩
        exact ⟨(), first, rest⟩
    | _ => exact ih

/-- What is checked of imports, exports and start functions, given the names of the exports so far and whether
there was a start function. -/
structure Interface (ctx : ModuleContext) (names : List String) (started : Bool) (imports : List ModuleImport)
    (exports : List ModuleExport) (starts : List Index) : Prop where
  const : ∀ decl ∈ imports, ∀ t, decl.descr ≠ .global ⟨t, .var⟩
  distinct : (exports.map ModuleExport.name ++ names).Nodup
  fixed : ∀ e ∈ exports, ¬ (e.descr.kind = .global ∧ e.descr.id.number?.any ctx.isMutable = true)
  single : starts.length ≤ if started then 0 else 1
  started : ∀ i ∈ starts, checkStart ctx i = .ok ()

/-- The names so far are distinct, as each was checked. -/
theorem checkInterface_eq_ok_iff (id : Option String) (metadata : Option ModuleMetadata) {fields : List Node}
    {names : List String} {started : Bool} (before : names.Nodup) :
    checkInterface ctx names started fields = .ok () ↔
      Interface ctx names started (Binary.Encode.Fields.ofModule ⟨id, fields, metadata⟩).imports
        (Binary.Encode.Fields.ofModule ⟨id, fields, metadata⟩).exports
        (Binary.Encode.Fields.ofModule ⟨id, fields, metadata⟩).starts := by
  induction fields generalizing names started with
  | nil =>
    refine ⟨fun _ => ⟨List.forall_mem_nil _, before, List.forall_mem_nil _, Nat.zero_le _, ?_⟩, fun _ => rfl⟩
    exact List.forall_mem_nil _
  | cons field fields ih =>
    cases field with
    | moduleImport decl =>
      have rest := @ih names started before
      by_cases changes : ∃ t, decl.descr = .global ⟨t, .var⟩
      · obtain ⟨t, changes⟩ := changes
        refine ⟨fun passes => ?_, fun holds => absurd changes (holds.const decl List.mem_cons_self t)⟩
        rw [checkInterface, changes] at passes
        cases passes
      · have skips : checkInterface ctx names started (.moduleImport decl :: fields) =
            checkInterface ctx names started fields := by
          rw [checkInterface]
          split
          · next t here => exact absurd ⟨t, here⟩ changes
          · rfl
        rw [skips, rest]
        constructor
        · rintro ⟨const, distinct, fixed, single, starts⟩
          exact ⟨List.forall_mem_cons.2 ⟨fun t here => changes ⟨t, here⟩, const⟩, distinct, fixed, single, starts⟩
        · rintro ⟨const, distinct, fixed, single, starts⟩
          exact ⟨(List.forall_mem_cons.1 const).2, distinct, fixed, single, starts⟩
    | moduleExport e =>
      rw [checkInterface]
      split_ifs with known changes
      · refine iff_of_false not_false fun holds => absurd ?_ (List.nodup_cons.1 holds.distinct).1
        exact List.mem_append_right _ (List.contains_iff_mem.1 known)
      · exact iff_of_false not_false fun holds => absurd changes (holds.fixed e List.mem_cons_self)
      · rw [ih (List.nodup_cons.2 ⟨mt List.contains_iff_mem.2 known, before⟩)]
        constructor
        · rintro ⟨const, distinct, fixed, single, starts⟩
          exact ⟨const, List.nodup_middle.1 distinct, List.forall_mem_cons.2 ⟨changes, fixed⟩, single, starts⟩
        · rintro ⟨const, distinct, fixed, single, starts⟩
          exact ⟨const, List.nodup_middle.2 distinct, (List.forall_mem_cons.1 fixed).2, single, starts⟩
    | start i =>
      rw [checkInterface]
      split_ifs with again
      · exact iff_of_false not_false fun holds => absurd holds.single (by simp [Binary.Encode.Fields.ofModule, again])
      · rw [bind_eq_ok_iff]
        constructor
        · rintro ⟨⟨⟩, first, rest⟩
          obtain ⟨const, distinct, fixed, single, starts⟩ := (@ih names true before).1 rest
          exact ⟨const, distinct, fixed, by simpa [Binary.Encode.Fields.ofModule, again] using single,
            List.forall_mem_cons.2 ⟨first, starts⟩⟩
        · rintro ⟨const, distinct, fixed, single, starts⟩
          obtain ⟨first, others⟩ := List.forall_mem_cons.1 starts
          exact ⟨(), first, (@ih names true before).2 ⟨const, distinct, fixed,
            by simpa [Binary.Encode.Fields.ofModule, again] using single, others⟩⟩
    | _ => exact ih before

end Typing

namespace Module

variable {m : Module}

/-- A module is valid if each of its checks passes. -/
theorem validate_eq_ok_iff : m.validate = .ok () ↔ lateImports false m.fields = [] ∧
    checkFunctions (.ofModule m) m = [] ∧ m.checkConstants (.ofModule m) = .ok () ∧
      m.checkInterface (.ofModule m) = .ok () := by
  have parts : violations (.ofModule m) m = [] ↔
      lateImports false m.fields = [] ∧ checkFunctions (.ofModule m) m = [] := by
    rw [violations, List.append_eq_nil_iff, List.map_eq_nil_iff]
  rw [← and_assoc, ← parts]
  unfold validate
  by_cases none : violations (.ofModule m) m = []
  · simp only [none, List.isEmpty_nil, Bool.not_true, Bool.false_eq_true, if_false, true_and]
    refine bind_eq_ok_iff.trans ⟨?_, ?_⟩
    · rintro ⟨⟨⟩, constants, interface⟩
      exact ⟨constants, interface⟩
    · rintro ⟨constants, interface⟩
      exact ⟨(), constants, interface⟩
  · simp [none, bind_eq_ok_iff]

/-- The functions of a valid module have their types. -/
theorem functionHasType_of_validate (passes : m.validate = .ok ()) {f : Func}
    (listed : f.toNode ∈ m.fields) : FunctionHasType (.ofModule m) f := by
  have none := (validate_eq_ok_iff.1 passes).2.1
  have here : f ∈ m.fields.filterMap Node.func? := List.mem_filterMap.2 ⟨_, listed, rfl⟩
  cases check : checkFunction (.ofModule m) f with
  | ok u => exact functionHasType_of_check check
  | error e =>
    have reported : e ∈ checkFunctions (.ofModule m) m :=
      List.mem_filterMap.2 ⟨f, here, by simp only [check]⟩
    rw [none] at reported
    cases reported

/-- The initialiser of a global gives one value of the type of the global. -/
theorem initialiser_of_validate (passes : m.validate = .ok ()) {type : GlobalType} {init : List Node}
    {name : Option Identifier} (listed : .global type init name ∈ m.fields) :
    constantTypes (.ofModule m) init = .ok [type.valtype] := by
  obtain ⟨-, -, constants, -⟩ := validate_eq_ok_iff.1 passes
  have checked := checkInitialisers_eq_ok_iff.1 constants (type, init) (List.mem_filterMap.2 ⟨_, listed, rfl⟩)
  obtain ⟨ts, constant, checked⟩ := bind_eq_ok_iff.1 checked
  split_ifs at checked with found
  rw [constant, found]

/-- What a valid module imports, exports and starts with was checked. -/
theorem interface_of_validate (passes : m.validate = .ok ()) :
    Interface (.ofModule m) [] false (Binary.Encode.Fields.ofModule m).imports
      (Binary.Encode.Fields.ofModule m).exports (Binary.Encode.Fields.ofModule m).starts :=
  (checkInterface_eq_ok_iff m.id m.metadata .nil).1 (validate_eq_ok_iff.1 passes).2.2.2

/-- An imported global that can change is refused wherever it stands. -/
theorem import_of_validate (passes : m.validate = .ok ()) {decl : ModuleImport}
    (listed : .moduleImport decl ∈ m.fields) (t : Valtype) : decl.descr ≠ .global ⟨t, .var⟩ :=
  (interface_of_validate passes).const decl (List.mem_filterMap.2 ⟨_, listed, rfl⟩) t

end Module

/-- A module of a program that was resolved and checked comes from one of the program as it was. -/
theorem Program.source_of_compile {p q : Program} (compiled : p.compile = .ok q) {node : Node}
    (listed : node ∈ q.body) {m : Module} (here : node.module? = some m) :
    ∃ node ∈ p.body, ∃ n, node.module? = some n ∧ n.resolve = .ok m ∧ m.validate = .ok () := by
  unfold Program.compile at compiled
  cases resolved : p.resolve with
  | error e =>
    simp only [resolved] at compiled
    cases compiled
  | ok r =>
    simp only [resolved, bind_eq_ok_iff, pure_eq_ok_iff] at compiled
    obtain ⟨⟨⟩, valid, rfl⟩ := compiled
    obtain ⟨nodes, mapped, resolved⟩ := bind_eq_ok_iff.1 resolved
    obtain rfl := pure_eq_ok_iff.1 resolved
    obtain ⟨before, inside, n, there, resolved⟩ := mem_of_mapModules mapped listed here
    exact ⟨before, inside, n, there, resolved, validate_of_validateAll valid listed here⟩

/-! ## The engine -/

namespace Engine

/-- A module that the engine accepts, from bytes or from a text. -/
inductive Compiled : Module → Prop
  | binary {config : Config} {bytes : List UInt8} {m : Module}
      (accepted : compile config bytes = .ok m) : Compiled m
  | text {source : String} {m : Module} (accepted : compileSource source = .ok m) : Compiled m

/-- A compiled module is a resolved module of the program, and valid. -/
theorem source_of_compileProgram {p : Program} {m : Module} (accepted : compileProgram p = .ok m) :
    ∃ node ∈ p.body, ∃ n, node.module? = some n ∧ n.resolve = .ok m ∧ m.validate = .ok () := by
  unfold compileProgram at accepted
  cases compiled : p.compile with
  | error e =>
    simp only [compiled] at accepted
    cases accepted
  | ok q =>
    simp only [compiled] at accepted
    cases found : q.module? with
    | none =>
      simp only [found] at accepted
      cases accepted
    | some first =>
      simp only [found] at accepted
      obtain rfl := Except.ok.inj accepted
      obtain ⟨node, listed, here⟩ := List.exists_of_findSome?_eq_some found
      exact Program.source_of_compile compiled listed here

/-- A compiled program whose literals fit is a checked module. -/
theorem checked_of_compileProgram {p : Program} {m : Module} (literals : EveryIn HasLiteral p.body)
    (accepted : compileProgram p = .ok m) : m.Checked := by
  obtain ⟨node, inside, n, there, resolved, passes⟩ := source_of_compileProgram accepted
  have fields := Program.everyIn_of_module? (everyIn_iff.1 literals node inside) there
  exact ⟨Module.explicit_of_resolve fields resolved,
    fun f member => Module.functionHasType_of_validate passes member,
    fun decl t member => Module.import_of_validate passes member t⟩

/-- A compiled module, from a text or from bytes, is checked. -/
theorem Compiled.checked {m : Module} (compiled : Compiled m) : m.Checked := by
  cases compiled with
  | binary accepted =>
    obtain ⟨p, read, accepted⟩ := bind_eq_ok_iff.1 accepted
    exact checked_of_compileProgram (Binary.literals_of_decode (mapError_eq_ok_iff.1 read)) accepted
  | text accepted =>
    obtain ⟨p, read, accepted⟩ := bind_eq_ok_iff.1 accepted
    exact checked_of_compileProgram (Wat.literals_of_parse (mapError_eq_ok_iff.1 read)) accepted

end Engine

end WasmEngine
