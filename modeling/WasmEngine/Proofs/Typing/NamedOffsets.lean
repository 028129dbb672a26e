import Mathlib.Data.List.Induction
import WasmEngine.Proofs.Syntax.NameResolution
import WasmEngine.Typing.Context

/-!
# Offsets of names in a context

A context maps each name of a function or global to the last place at which it is declared (`Offsets`), while a
reference is resolved to the first one.  Both know the same names, and they agree on a name just if it is declared once
(`offsets_beside_references`).
-/

namespace WasmEngine

/-! ## First and last places -/

/-- The last place of something in a list. -/
def LastAt {α : Type} (xs : List α) (x : α) (n : Nat) : Prop := xs[n]? = some x ∧ ∀ k, n < k → xs[k]? ≠ some x

/-- Something has one place in a list or none. -/
def OnceAtMost {α : Type} (xs : List α) (x : α) : Prop := ∀ i j : Nat, xs[i]? = some x → xs[j]? = some x → i = j

section Places

variable {α : Type} {xs : List α} {x y : α} {n : Nat}

/-- A last place in a longer list is its end or a last place before it. -/
theorem lastAt_concat : LastAt (xs ++ [y]) x n ↔ y = x ∧ n = xs.length ∨ y ≠ x ∧ LastAt xs x n := by
  have before {k : Nat} (within : k < xs.length) : (xs ++ [y])[k]? = xs[k]? := List.getElem?_append_left within
  have last : (xs ++ [y])[xs.length]? = some y := List.getElem?_concat_length
  have place {k : Nat} {z : α} (here : (xs ++ [y])[k]? = some z) : k < xs.length ∨ k = xs.length := by
    obtain ⟨within, -⟩ := List.getElem?_eq_some_iff.1 here
    rw [List.length_append, List.length_singleton] at within
    omega
  constructor
  · rintro ⟨here, after⟩
    obtain within | rfl := place here
    · refine .inr ⟨fun same => after _ within (same ▸ last), before within ▸ here, fun k later again => ?_⟩
      obtain ⟨inside, -⟩ := List.getElem?_eq_some_iff.1 again
      exact after k later ((before inside).trans again)
    · exact .inl ⟨Option.some.inj (last.symm.trans here), rfl⟩
  · rintro (⟨rfl, rfl⟩ | ⟨other, here, after⟩)
    · refine ⟨last, fun k later again => ?_⟩
      obtain within | rfl := place again <;> omega
    · obtain ⟨within, -⟩ := List.getElem?_eq_some_iff.1 here
      refine ⟨(before within).trans here, fun k later again => ?_⟩
      obtain inside | rfl := place again
      · exact after k later ((before inside).symm.trans again)
      · exact other (Option.some.inj (last.symm.trans again))

/-- There is a last place of what is in a list. -/
theorem exists_lastAt : (∃ n, LastAt xs x n) ↔ x ∈ xs := by
  induction xs using List.reverseRecOn with
  | nil => exact ⟨fun ⟨_, here, _⟩ => (nomatch here), nofun⟩
  | append_singleton xs y ih =>
    simp only [lastAt_concat, List.mem_append, List.mem_singleton, ← ih]
    by_cases same : y = x
    · exact ⟨fun _ => .inr same.symm, fun _ => ⟨_, .inl ⟨same, rfl⟩⟩⟩
    · constructor
      · rintro ⟨n, ⟨same', -⟩ | ⟨-, here⟩⟩
        · exact absurd same' same
        · exact .inl ⟨n, here⟩
      · rintro (⟨n, here⟩ | same')
        · exact ⟨n, .inr ⟨same, here⟩⟩
        · exact absurd same'.symm same

/-- There is a first place of what is in a list. -/
theorem exists_firstAt [BEq α] [LawfulBEq α] : (∃ n, FirstAt xs x n) ↔ x ∈ xs := by
  simp only [← findIdx?_eq_some_iff_firstAt]
  rw [← Option.isSome_iff_exists, List.findIdx?_isSome, List.any_eq_true]
  exact ⟨fun ⟨y, inside, same⟩ => eq_of_beq same ▸ inside, fun inside => ⟨x, inside, beq_self_eq_true x⟩⟩

/-- The last place is the first one just if there is no other. -/
theorem lastAt_iff_firstAt : (∀ n, LastAt xs x n ↔ FirstAt xs x n) ↔ OnceAtMost xs x := by
  constructor
  · intro agree i j here there
    obtain ⟨n, last⟩ := exists_lastAt.2 (List.mem_of_getElem? here)
    have first := (agree n).1 last
    -- every place is neither behind the last one nor before the first one
    have only {k : Nat} (place : xs[k]? = some x) : k = n :=
      Nat.le_antisymm (Nat.not_lt.1 fun later => last.2 k later place)
        (Nat.not_lt.1 fun earlier => first.2 k earlier place)
    exact (only here).trans (only there).symm
  · intro once n
    exact ⟨fun last => ⟨last.1, fun k earlier again => Nat.ne_of_lt earlier (once k n again last.1)⟩,
      fun first => ⟨first.1, fun k later again => Nat.ne_of_lt later (once n k first.1 again)⟩⟩

end Places

/-! ## Declared names -/

/-- The offsets of names are the last places at which they are declared, of which there is some number. -/
structure Offsets (names : List (Option String)) (count : Nat) (bound : List (String × Nat)) : Prop where
  count : count = names.length
  last : ∀ name n, bound.lookup name = some n ↔ LastAt names (some name) n

section Offsets

variable {names : List (Option String)} {count : Nat} {bound : List (String × Nat)}

theorem offsets_nil : Offsets [] 0 [] := ⟨rfl, fun _ _ => ⟨nofun, fun ⟨here, _⟩ => nomatch here⟩⟩

/-- A definition without a name is counted only. -/
theorem Offsets.unnamed (offsets : Offsets names count bound) : Offsets (names ++ [none]) (count + 1) bound where
  count := by rw [List.length_append, offsets.count]; rfl
  last name n := by
    rw [offsets.last, lastAt_concat]
    exact ⟨fun last => .inr ⟨nofun, last⟩, fun either => either.elim (fun same => nomatch same.1) And.right⟩

/-- A definition with a name binds it to its offset. -/
theorem Offsets.named (offsets : Offsets names count bound) (name : String) :
    Offsets (names ++ [some name]) (count + 1) ((name, count) :: bound) where
  count := by rw [List.length_append, offsets.count]; rfl
  last other n := by
    rw [lastAt_concat, List.lookup_cons, ← offsets.last, Option.some.injEq, ← offsets.count]
    by_cases same : other = name
    · subst same
      simp only [beq_self_eq_true, Option.some.injEq]
      exact ⟨fun here => .inl ⟨trivial, here.symm⟩,
        fun either => either.elim (fun here => here.2.symm) fun there => absurd rfl there.1⟩
    · rw [beq_eq_false_iff_ne.2 same]
      exact ⟨fun there => .inr ⟨fun here => same (Option.some.inj here).symm, there⟩,
        fun either => either.elim (fun here => absurd here.1.symm same) And.right⟩

end Offsets

/-- A context has declared some fields. -/
structure ModuleContext.NamesOf (ctx : ModuleContext) (fields : List Node) : Prop where
  functions : Offsets (entryNames .func fields) ctx.funcs.length ctx.funcNames
  globals : Offsets (entryNames .global fields) ctx.globals.length ctx.globalNames

namespace ModuleContext

variable {ctx : ModuleContext} {fields : List Node}

theorem namesOf_empty : empty.NamesOf [] := ⟨offsets_nil, offsets_nil⟩

/-- The names of one more field follow those of the others. -/
theorem entryNames_concat (kind : ExportKind) (fields : List Node) (field : Node) :
    entryNames kind (fields ++ [field]) = entryNames kind fields ++ entryNames kind [field] := List.filterMap_append

/-- A field that is neither a function nor a global keeps what is declared of these. -/
theorem NamesOf.other (names : ctx.NamesOf fields) {field : Node} (func : entryNames .func [field] = [])
    (global : entryNames .global [field] = []) {ctx' : ModuleContext} (funcs : ctx'.funcs = ctx.funcs)
    (funcNames : ctx'.funcNames = ctx.funcNames) (globals : ctx'.globals = ctx.globals)
    (globalNames : ctx'.globalNames = ctx.globalNames) : ctx'.NamesOf (fields ++ [field]) where
  functions := by
    rw [entryNames_concat, func, List.append_nil, funcs, funcNames]
    exact names.functions
  globals := by
    rw [entryNames_concat, global, List.append_nil, globals, globalNames]
    exact names.globals

/-- The names of functions are those of the fields, with one more. -/
theorem NamesOf.addFunction (names : ctx.NamesOf fields) {field : Node} {name : Identifier} (type : FuncType)
    (func : entryNames .func [field] = [some name.value]) (global : entryNames .global [field] = []) :
    (ctx.addFunction name type).NamesOf (fields ++ [field]) where
  functions := by
    rw [entryNames_concat, func, ModuleContext.addFunction, List.length_append]
    exact names.functions.named name.value
  globals := by
    rw [entryNames_concat, global, List.append_nil]
    exact names.globals

/-- The names of globals are those of the fields, with one more. -/
theorem NamesOf.addGlobal (names : ctx.NamesOf fields) {field : Node} {name : Option Identifier}
    (type : GlobalType) (func : entryNames .func [field] = [])
    (global : entryNames .global [field] = [name.map Identifier.value]) :
    (ctx.addGlobal name type).NamesOf (fields ++ [field]) where
  functions := by
    rw [entryNames_concat, func, List.append_nil]
    exact names.functions
  globals := by
    have count : (ctx.addGlobal name type).globals.length = ctx.globals.length + 1 := List.length_append
    rw [entryNames_concat, global, count]
    cases name with
    | some id => exact names.globals.named id.value
    | none => exact names.globals.unnamed

/-- Each field adds its name to those of its kind. -/
theorem NamesOf.addField (names : ctx.NamesOf fields) (field : Node) :
    (ctx.addField field).NamesOf (fields ++ [field]) := by
  cases field with
  | func name sig locals body metadata => exact names.addFunction _ rfl rfl
  | global type init name => exact names.addGlobal _ rfl rfl
  | moduleImport decl =>
    obtain ⟨m, name, descr, id⟩ := decl
    cases descr with
    | func d => exact names.addFunction _ rfl rfl
    | global type => exact names.addGlobal _ rfl rfl
    | memory | table => exact names.other rfl rfl rfl rfl rfl rfl
  | _ => exact names.other rfl rfl rfl rfl rfl rfl

/-- The context of a module has the names of its fields. -/
theorem namesOf_ofModule (m : Module) : (ofModule m).NamesOf m.fields := by
  have all (fields before : List Node) {ctx : ModuleContext} (names : ctx.NamesOf before) :
      (fields.foldl ModuleContext.addField ctx).NamesOf (before ++ fields) := by
    induction fields generalizing before ctx with
    | nil => rwa [List.append_nil]
    | cons field fields ih =>
      rw [← List.singleton_append, ← List.append_assoc]
      exact ih _ (names.addField field)
  exact all m.fields [] namesOf_empty

end ModuleContext

/-! ## Context and resolver -/

/-- The offset of a name in a context beside the literal that a reference to it becomes: one is missing just if the
other is, the offset is the last place of the name and the literal its first one, and they agree just if the name is
declared once at most. -/
structure OffsetBeside (names : List (Option String)) (offset : Option Nat)
    (literal : Except ResolveError NumberLiteral) (space : Space) (name : String) : Prop where
  missing : offset = none ↔ literal = .error (.unresolvedIdentifier space name)
  last : ∀ n : Nat, offset = some n ↔ LastAt names (some name) n
  first : ∀ n : Nat, literal = .ok (.ofInt n) ↔ FirstAt names (some name) n
  agree : (∀ n : Nat, offset = some n ↔ literal = .ok (.ofInt n)) ↔ OnceAtMost names (some name)

theorem NumberLiteral.ofInt_inj {i j : Nat} : NumberLiteral.ofInt i = .ofInt j ↔ i = j :=
  ⟨fun same => Int.ofNat.inj (congrArg NumberLiteral.value same), fun same => same ▸ rfl⟩

/-- A name is resolved to its position. -/
theorem number_eq_ok_iff {s : Scope} {space : Space} {name : String} {n : Nat} :
    s.number space name = .ok (.ofInt n) ↔ s.position? space name = some n := by
  rw [Scope.number]
  cases s.position? space name with
  | some k => rw [Except.ok.injEq, NumberLiteral.ofInt_inj, Option.some.injEq]
  | none => exact ⟨nofun, nofun⟩

/-- A name without a position is unresolved. -/
theorem number_eq_error_iff {s : Scope} {space : Space} {name : String} :
    s.number space name = .error (.unresolvedIdentifier space name) ↔ s.position? space name = none := by
  rw [Scope.number]
  cases s.position? space name with
  | some k => exact ⟨nofun, nofun⟩
  | none => exact ⟨fun _ => rfl, fun _ => rfl⟩

/-- A name stands for the first definition that bears it. -/
theorem stands_iff_firstAt {fields : List Node} {locals : List (Option String)} {labels : List String}
    {kind : ExportKind} {name : String} {n : Nat} :
    StandsFor fields locals labels kind.space name n ↔ FirstAt (entryNames kind fields) (some name) n := by
  cases kind <;> exact Iff.rfl

theorem Offsets.beside {fields : List Node} {kind : ExportKind} {count : Nat} {bound : List (String × Nat)}
    (offsets : Offsets (entryNames kind fields) count bound) (locals : List (Option String)) (labels : List String)
    (name : String) :
    OffsetBeside (entryNames kind fields) (bound.lookup name)
      ((⟨Namespaces.ofFields fields, locals, labels⟩ : Scope).number kind.space name) kind.space name := by
  have first (n : Nat) : (⟨Namespaces.ofFields fields, locals, labels⟩ : Scope).number kind.space name =
      .ok (.ofInt n) ↔ FirstAt (entryNames kind fields) (some name) n := by
    rw [number_eq_ok_iff, Scope.position?_eq_some_iff, stands_iff_firstAt]
  refine ⟨?_, offsets.last name, first, ?_⟩
  · rw [number_eq_error_iff, Option.eq_none_iff_forall_ne_some, Option.eq_none_iff_forall_ne_some]
    simp only [ne_eq, offsets.last, Scope.position?_eq_some_iff, stands_iff_firstAt]
    rw [← not_exists, ← not_exists, exists_lastAt, exists_firstAt]
  · simp only [offsets.last, first]
    exact lastAt_iff_firstAt

/-- **Context and resolver know the same names.**  A name of a function or global is missing in the context just if a
reference to it cannot be resolved.  Otherwise the context has the last place at which it is declared, while a
reference becomes the first one, so that they agree just if the name is declared once.  In particular each reference
of a resolved module has the number that the context has for it, if its name is declared once. -/
theorem offsets_beside_references (m : Module) :
    (∀ (locals : List (Option String)) (labels : List String) (name : String),
      OffsetBeside (entryNames .func m.fields) ((ModuleContext.ofModule m).functionOffset? name)
        ((⟨Namespaces.ofFields m.fields, locals, labels⟩ : Scope).number .function name) .function name ∧
      OffsetBeside (entryNames .global m.fields) ((ModuleContext.ofModule m).globalOffset? name)
        ((⟨Namespaces.ofFields m.fields, locals, labels⟩ : Scope).number .global name) .global name) ∧
    ∀ m', m.resolveNames = .ok m' → ∃ number, m' = m.numbered number ∧
      ∀ field ∈ m.fields, ∀ labels id,
        (field.FieldMentions labels .function id → OnceAtMost (entryNames .func m.fields) (some id.value) →
          (ModuleContext.ofModule m).functionOffset? id.value =
            some (number field.localNames labels .function id.value)) ∧
        (field.FieldMentions labels .global id → OnceAtMost (entryNames .global m.fields) (some id.value) →
          (ModuleContext.ofModule m).globalOffset? id.value =
            some (number field.localNames labels .global id.value)) := by
  have names := ModuleContext.namesOf_ofModule m
  refine ⟨fun locals labels name => ⟨names.functions.beside locals labels name,
    names.globals.beside locals labels name⟩, fun m' resolved => ?_⟩
  obtain ⟨bound, rfl⟩ := (m.okIff_resolveNames m').1 resolved
  refine ⟨m.numbers, rfl, fun field inside labels id => ⟨fun mentions once => ?_, fun mentions once => ?_⟩⟩
  · have stands := Module.numberedBy_numbers bound field inside labels _ id mentions
    exact (names.functions.last _ _).2 ((lastAt_iff_firstAt.2 once _).2 stands)
  · have stands := Module.numberedBy_numbers bound field inside labels _ id mentions
    exact (names.globals.last _ _).2 ((lastAt_iff_firstAt.2 once _).2 stands)

/-- A function that is declared again is not the one that references mean. -/
theorem not_offset_of_reference : ¬∀ (m : Module) (name : String) (n : Nat),
    (ModuleContext.ofModule m).functionOffset? name = some n ↔
      (⟨Namespaces.ofFields m.fields, [], []⟩ : Scope).number .function name = .ok (.ofInt n) := by
  intro agree
  let f : Node := .func (.ofString "f") (.inline ⟨[], []⟩) [] [] none
  have offset : (ModuleContext.ofModule ⟨none, [f, f], none⟩).functionOffset? "f" = some 1 := by decide
  have literal := (agree ⟨none, [f, f], none⟩ "f" 1).1 offset
  have first : (⟨Namespaces.ofFields [f, f], [], []⟩ : Scope).number .function "f" = .ok (.ofInt 0) := rfl
  exact absurd (Except.ok.inj (first.symm.trans literal)) (by decide)

end WasmEngine
