import WasmEngine.Proofs.Binary.SectionOrder
import WasmEngine.Proofs.Embedding.Linked
import WasmEngine.Proofs.Embedding.SharedStores
import WasmEngine.Proofs.Machine.Renaming
import WasmEngine.Proofs.Typing.ImportOrder

/-!
# Index spaces

Code is checked against the declarations of a context, runs on the addresses of an instance, and is written with
the indices of a binary.  All three number the functions, tables, memories and globals of a module alike.
-/

namespace WasmEngine

open Node Outcome

/-! ## Signatures after resolution -/

/-- A node whose types are in place has its signature. -/
theorem TypeReference.hasSignature_of_inline {types : List TypeDef} {node node' : Node}
    (inlined : inline types node = .ok node') : node'.HasSignature := by
  cases inlines_of_inline inlined with
  | func signature | callIndirect signature | importedFunc signature => exact isInline_of_inlineRef signature
  | other unvisited =>
    cases node with
    | func | callIndirect => cases unvisited
    | moduleImport decl =>
      obtain ⟨m, name, descr, id⟩ := decl
      cases descr with
      | func => cases unvisited
      | _ => trivial
    | _ => trivial
  | _ => trivial

/-- Replacing names leaves the signatures of functions and imports. -/
theorem Scope.hasSignature_of_field {s : Scope} {node node' : Node} (signature : node.HasSignature)
    (replaced : s.field node = .ok node') : node'.HasSignature := by
  cases replaces_of_field replaced with
  | elem | data => trivial
  | _ => exact signature

/-- Every field of a resolved module has its signature. -/
theorem Module.hasSignature_of_resolve {m m' : Module} (resolved : m.resolve = .ok m') :
    ∀ field ∈ m'.fields, field.HasSignature := by
  obtain ⟨_, -, inlined, replaced⟩ := resolve_eq_ok resolved
  intro field listed
  obtain ⟨before, inside, replaced⟩ := exists_of_forall₂ replaced listed
  obtain ⟨source, -, inlined⟩ := exists_of_forall₂ inlined inside
  exact Scope.hasSignature_of_field (TypeReference.hasSignature_of_inline inlined) replaced

/-! ## Addresses of definitions -/

/-- The instance with one more address of a kind. -/
def ModuleInstance.push (i : ModuleInstance) (a : Nat) : ExportKind → ModuleInstance
  | .func => { i with funcs := i.funcs ++ [a] }
  | .table => { i with tables := i.tables ++ [a] }
  | .memory => { i with mems := i.mems ++ [a] }
  | .global => { i with globals := i.globals ++ [a] }

/-- An address is added to the space of its kind. -/
theorem ModuleInstance.space_push (i : ModuleInstance) (a : Nat) (kind other : ExportKind) :
    (i.push a kind).space other = i.space other ++ if kind = other then [a] else [] := by
  cases kind <;> cases other <;> simp [push, space]

/-- An address holds what a definition of a module declares: a function of the declared type, which runs the
definition for its instance; a global of the declared type, with the mutability of its definition; a memory or
table, within the limits of its definition. -/
def Definition.Holds (ctx : ModuleContext) (owner : Nat) (s : Store) (a : Nat) : Definition → Prop
  | imported decl =>
    match decl.descr with
    | .func d => ∃ f, s.func a = .ok f ∧ f.type = ctx.funcType d.signature
    | .table _ => ∃ t, s.table a = .ok t
    | .memory _ => ∃ m, s.memory a = .ok m
    | .global type => ∃ g, s.global a = .ok g ∧ g.valtype = type.valtype
  | func f => s.func a = .ok ⟨ctx.funcType f.signature, .wasm f owner⟩
  | table t => ∃ u, s.table a = .ok u ∧ u.limits = t.limits
  | memory d => ∃ m, s.memory a = .ok m ∧ m.max = d.limits.max ∧ d.limits.min ≤ m.pages
  | global type _ => ∃ g, s.global a = .ok g ∧ g.valtype = type.valtype ∧ g.mutability = type.mutability

/-- An entry that is made for what an import object offers. -/
inductive StoreEntry.Offered (imports : ImportObject) : StoreEntry → Prop
  | func (type : FuncType) (handle : Nat) : Offered imports (.func ⟨type, .host handle⟩)
  | global (g : GlobalInstance) : Offered imports (.global g)
  | memory (m : Memory) : Offered imports (.memory m)
  | table {t : Table} (offers : imports.Offers (.table t)) : Offered imports (.table t)

section

variable {ctx whole : ModuleContext} {owner n a : Nat} {s s' : Store} {addresses : List Nat}

namespace Store.Extends

variable (ext : s.Extends n addresses s')
include ext

/-- A function that is in the store stays as it is. -/
theorem func {f : FuncInstance} (here : s.func a = .ok f) : s'.func a = .ok f := by
  obtain ⟨e, found, keeps⟩ := ext.entries a _ (Store.func_eq_ok.1 here)
  cases keeps
  exact Store.func_eq_ok.2 found

/-- A global that is in the store keeps its type and its mutability. -/
theorem global {g : GlobalInstance} (here : s.global a = .ok g) : ∃ g', s'.global a = .ok g' ∧
    g'.valtype = g.valtype ∧ g'.mutability = g.mutability := by
  obtain ⟨e, found, keeps⟩ := ext.entries a _ (Store.global_eq_ok.1 here)
  cases keeps
  exact ⟨_, Store.global_eq_ok.2 found, rfl, rfl⟩

/-- A memory that is in the store keeps its maximum and never shrinks. -/
theorem memory {m : Memory} (here : s.memory a = .ok m) :
    ∃ m', s'.memory a = .ok m' ∧ m'.max = m.max ∧ m.pages ≤ m'.pages := by
  obtain ⟨e, found, keeps⟩ := ext.entries a _ (Store.memory_eq_ok.1 here)
  cases keeps with
  | memory max pages => exact ⟨_, Store.memory_eq_ok.2 found, max, pages⟩

/-- A table that is in the store keeps its limits. -/
theorem table {t : Table} (here : s.table a = .ok t) : ∃ t', s'.table a = .ok t' ∧ t'.limits = t.limits := by
  obtain ⟨e, found, keeps⟩ := ext.entries a _ (Store.table_eq_ok.1 here)
  cases keeps with
  | table _ limits => exact ⟨_, Store.table_eq_ok.2 found, limits⟩

end Store.Extends

/-- What a definition has in the store it keeps. -/
theorem Definition.Holds.extend {d : Definition} (holds : d.Holds ctx owner s a)
    (ext : s.Extends n addresses s') : d.Holds ctx owner s' a := by
  cases d with
  | imported decl =>
    obtain ⟨m, name, descr, id⟩ := decl
    cases descr with
    | func d =>
      obtain ⟨f, here, type⟩ := holds
      exact ⟨f, ext.func here, type⟩
    | global type =>
      obtain ⟨g, here, same⟩ := holds
      obtain ⟨g', found, valtype, -⟩ := ext.global here
      exact ⟨g', found, valtype.trans same⟩
    | memory d =>
      obtain ⟨m, here⟩ := holds
      obtain ⟨m', found, -⟩ := ext.memory here
      exact ⟨m', found⟩
    | table t =>
      obtain ⟨u, here⟩ := holds
      obtain ⟨u', found, -⟩ := ext.table here
      exact ⟨u', found⟩
  | func f => exact ext.func holds
  | table t =>
    obtain ⟨u, here, same⟩ := holds
    obtain ⟨u', found, limits⟩ := ext.table here
    exact ⟨u', found, limits.trans same⟩
  | memory d =>
    obtain ⟨m, here, same, fits⟩ := holds
    obtain ⟨m', found, max, pages⟩ := ext.memory here
    exact ⟨m', found, max.trans same, fits.trans pages⟩
  | global type init =>
    obtain ⟨g, here, same, mutability⟩ := holds
    obtain ⟨g', found, valtype, kept⟩ := ext.global here
    exact ⟨g', found, valtype.trans same, kept.trans mutability⟩

end

/-! ## Allocation -/

namespace Linking

variable {imports : ImportObject} {ctx whole : ModuleContext} {owner : Nat} {i i' : ModuleInstance}
  {s s' : Store} {decl : ModuleImport} {value : ImportValue}

theorem guard_eq_ok_iff {α β : Type} {p : Prop} [Decidable p] {e : EngineError} {f : β → Linking α}
    {g : Linking α} {v : α} : (if p then throw e >>= f else g) s = .ok v s' ↔ ¬ p ∧ g s = .ok v s' := by
  split_ifs with holds
  · exact ⟨nofun, fun refused => absurd holds refused.1⟩
  · exact ⟨fun runs => ⟨holds, runs⟩, fun runs => runs.2⟩

/-- Every branch of an import that succeeds adds one address, of what the import declares, which is in the store or
made for what is offered. -/
theorem resolveImport_cases (resolved : resolveImport imports whole i decl s = .ok i' s') :
    ∃ a, i' = i.push a decl.descr.kind ∧ (Definition.imported decl).Holds whole owner s' a ∧
      (s' = s ∨ ∃ e, e.Offered imports ∧ s' = s.alloc e) := by
  obtain ⟨module, name, descr, id⟩ := decl
  simp only [resolveImport] at resolved
  cases found : imports.find? module name with
  | none =>
    rw [found] at resolved
    cases resolved
  | some value =>
    rw [found] at resolved
    cases descr with
    | func d =>
      simp only [importFunc] at resolved
      split at resolved
      · rw [guard_eq_ok_iff, malloc_bind_eq, run_pure_eq_ok_iff] at resolved
        obtain ⟨same, rfl, rfl⟩ := resolved
        exact ⟨s.size, rfl, ⟨_, Store.func_eq_ok.2 (s.get?_alloc_size _), not_not.1 same⟩,
          .inr ⟨_, .func _ _, rfl⟩⟩
      · next address =>
        rw [get_bind_eq, ofResult_bind_eq_ok_iff] at resolved
        obtain ⟨f, here, resolved⟩ := resolved
        rw [guard_eq_ok_iff, run_pure_eq_ok_iff] at resolved
        obtain ⟨same, rfl, rfl⟩ := resolved
        exact ⟨address, rfl, ⟨f, here, not_not.1 same⟩, .inl rfl⟩
      · cases resolved
    | global type =>
      simp only [importGlobal] at resolved
      split at resolved
      · rw [guard_eq_ok_iff, malloc_bind_eq, run_pure_eq_ok_iff] at resolved
        obtain ⟨-, rfl, rfl⟩ := resolved
        exact ⟨s.size, rfl, ⟨_, Store.global_eq_ok.2 (s.get?_alloc_size _), rfl⟩, .inr ⟨_, .global _, rfl⟩⟩
      · next address =>
        rw [get_bind_eq, ofResult_bind_eq_ok_iff] at resolved
        obtain ⟨g, here, resolved⟩ := resolved
        rw [guard_eq_ok_iff, run_pure_eq_ok_iff] at resolved
        obtain ⟨same, rfl, rfl⟩ := resolved
        exact ⟨address, rfl, ⟨g, here, not_not.1 same⟩, .inl rfl⟩
      · cases resolved
    | memory d =>
      simp only [importMemory] at resolved
      split at resolved
      · rw [malloc_bind_eq, run_pure_eq_ok_iff] at resolved
        obtain ⟨rfl, rfl⟩ := resolved
        exact ⟨s.size, rfl, ⟨_, Store.memory_eq_ok.2 (s.get?_alloc_size _)⟩, .inr ⟨_, .memory _, rfl⟩⟩
      · next address =>
        rw [get_bind_eq, ofResult_bind_eq_ok_iff] at resolved
        obtain ⟨m, here, resolved⟩ := resolved
        rw [run_pure_eq_ok_iff] at resolved
        obtain ⟨rfl, rfl⟩ := resolved
        exact ⟨address, rfl, ⟨m, here⟩, .inl rfl⟩
      · cases resolved
    | table t =>
      simp only [importTable] at resolved
      split at resolved
      · rw [malloc_bind_eq, run_pure_eq_ok_iff] at resolved
        obtain ⟨rfl, rfl⟩ := resolved
        exact ⟨s.size, rfl, ⟨_, Store.table_eq_ok.2 (s.get?_alloc_size _)⟩,
          .inr ⟨_, .table ⟨module, name, found⟩, rfl⟩⟩
      · next address =>
        rw [get_bind_eq, ofResult_bind_eq_ok_iff] at resolved
        obtain ⟨t, here, resolved⟩ := resolved
        rw [run_pure_eq_ok_iff] at resolved
        obtain ⟨rfl, rfl⟩ := resolved
        exact ⟨address, rfl, ⟨t, here⟩, .inl rfl⟩
      · cases resolved

/-- A new memory has the limits that it was asked for. -/
theorem limits_of_create {limits : Limits} {m : Memory} (created : Memory.create limits = .ok m) :
    m.max = limits.max ∧ m.pages = limits.min := by
  unfold Memory.create at created
  split_ifs at created
  split at created
  · next none =>
    cases created
    exact ⟨none.symm, Array.size_replicate⟩
  · next some =>
    split_ifs at created
    cases created
    exact ⟨some.symm, Array.size_replicate⟩

/-- A field that defines something adds one address, of what it defines; any other adds none. -/
theorem allocateField_cases {field : Node}
    (allocated : allocateField imports whole owner i field s = .ok i' s') :
    match field.definition? with
    | some d => ∃ a, i' = i.push a d.kind ∧ d.Holds whole owner s' a
    | none => ∀ kind, i'.space kind = i.space kind := by
  cases field with
  | moduleImport decl =>
    obtain ⟨a, pushed, holds, -⟩ := resolveImport_cases allocated
    exact ⟨a, pushed, holds⟩
  | func name sig locals body metadata =>
    rw [allocateField, malloc_bind_eq, run_pure_eq_ok_iff] at allocated
    obtain ⟨rfl, rfl⟩ := allocated
    exact ⟨s.size, rfl, Store.func_eq_ok.2 (s.get?_alloc_size _)⟩
  | table t =>
    rw [allocateField, malloc_bind_eq, run_pure_eq_ok_iff] at allocated
    obtain ⟨rfl, rfl⟩ := allocated
    exact ⟨s.size, rfl, _, Store.table_eq_ok.2 (s.get?_alloc_size _), rfl⟩
  | memory d =>
    rw [allocateField, ofResult_bind_eq_ok_iff] at allocated
    obtain ⟨m, created, allocated⟩ := allocated
    rw [malloc_bind_eq, run_pure_eq_ok_iff] at allocated
    obtain ⟨rfl, rfl⟩ := allocated
    obtain ⟨max, pages⟩ := limits_of_create created
    exact ⟨s.size, rfl, m, Store.memory_eq_ok.2 (s.get?_alloc_size _), max, Nat.le_of_eq pages.symm⟩
  | global type init name =>
    rw [allocateField, get_bind_eq, ofResult_bind_eq_ok_iff] at allocated
    obtain ⟨value, -, allocated⟩ := allocated
    rw [malloc_bind_eq, run_pure_eq_ok_iff] at allocated
    obtain ⟨rfl, rfl⟩ := allocated
    exact ⟨s.size, rfl, _, Store.global_eq_ok.2 (s.get?_alloc_size _), rfl, rfl⟩
  | _ =>
    obtain ⟨rfl, rfl⟩ := run_pure_eq_ok_iff.1 allocated
    exact fun kind => by cases kind <;> rfl

end Linking

/-! ## Instances -/

/-- The addresses of an instance hold what a context declares, and what definitions declare in their order. -/
structure Numbered (whole : ModuleContext) (owner : Nat) (ctx : ModuleContext) (ds : ExportKind → List Definition)
    (i : ModuleInstance) (s : Store) : Prop where
  context : InstanceTyped s ctx i
  space : ∀ kind, List.Forall₂ (fun a d => d.Holds whole owner s a) (i.space kind) (ds kind)

section

variable {ctx whole : ModuleContext} {owner n a : Nat} {i i' : ModuleInstance} {s s' : Store}
  {addresses : List Nat} {field : Node} {ds : ExportKind → List Definition}

/-- What an instance holds it keeps in later stores. -/
theorem InstanceTyped.extend (typed : InstanceTyped s ctx i) (ext : s.Extends n addresses s') :
    InstanceTyped s' ctx i where
  funcs := typed.funcs.imp fun a type ⟨f, here, same⟩ => ⟨f, ext.func here, same⟩
  globals := typed.globals.imp fun a type ⟨g, here, same, var⟩ => by
    obtain ⟨g', found, valtype, mutability⟩ := ext.global here
    exact ⟨g', found, valtype.trans same, fun isVar => mutability.trans (var isVar)⟩
  mems := typed.mems.imp fun a _ ⟨m, here⟩ => by
    obtain ⟨m', found, -⟩ := ext.memory here
    exact ⟨m', found⟩
  tables := typed.tables.imp fun a _ ⟨t, here⟩ => by
    obtain ⟨t', found, -⟩ := ext.table here
    exact ⟨t', found⟩

/-- What a field adds to a context is what its definition holds. -/
theorem InstanceTyped.addField (typed : InstanceTyped s ctx i) {d : Definition}
    (defines : field.definition? = some d) (signature : field.HasSignature)
    (const : ∀ decl t, field = .moduleImport decl → decl.descr ≠ .global ⟨t, .var⟩)
    (holds : d.Holds whole owner s a) : InstanceTyped s (ctx.addField field) (i.push a d.kind) := by
  cases field with
  | moduleImport decl =>
    cases defines
    obtain ⟨module, name, descr, id⟩ := decl
    cases descr with
    | func d =>
      obtain ⟨f, here, type⟩ := holds
      exact typed.addFunc ⟨f, here, type.trans (ModuleContext.funcType_of_isInline signature)⟩ _
    | global type =>
      obtain ⟨g, here, valtype⟩ := holds
      refine typed.addGlobal ⟨g, here, valtype, fun var => ?_⟩ _
      exact absurd (by rw [← var]) (const _ type.valtype rfl)
    | memory d => exact typed.addMemory holds _
    | table t => exact typed.addTable holds _
  | func name sig locals body metadata =>
    cases defines
    exact typed.addFunc ⟨_, holds, ModuleContext.funcType_of_isInline signature⟩ _
  | table t =>
    cases defines
    obtain ⟨u, here, -⟩ := holds
    exact typed.addTable ⟨u, here⟩ _
  | memory d =>
    cases defines
    obtain ⟨m, here, -⟩ := holds
    exact typed.addMemory ⟨m, here⟩ _
  | global type init name =>
    cases defines
    obtain ⟨g, here, valtype, mutability⟩ := holds
    exact typed.addGlobal ⟨g, here, valtype, mutability.trans⟩ _
  | _ => cases defines

/-- What an instance holds is a matter of its address lists. -/
theorem InstanceTyped.of_space (typed : InstanceTyped s ctx i) (same : ∀ kind, i'.space kind = i.space kind) :
    InstanceTyped s ctx i' where
  funcs := (show i'.funcs = i.funcs from same .func) ▸ typed.funcs
  globals := (show i'.globals = i.globals from same .global) ▸ typed.globals
  mems := (show i'.mems = i.mems from same .memory) ▸ typed.mems
  tables := (show i'.tables = i.tables from same .table) ▸ typed.tables

/-- A field that defines nothing adds nothing to what has an index. -/
theorem InstanceTyped.addOther (typed : InstanceTyped s ctx i) (defines : field.definition? = none) :
    InstanceTyped s (ctx.addField field) i := by
  cases field with
  | moduleImport | func | table | memory | global => cases defines
  | _ => exact ⟨typed.funcs, typed.globals, typed.mems, typed.tables⟩

theorem numbered_empty (whole : ModuleContext) (owner : Nat) (s : Store) :
    Numbered whole owner .empty (fun _ => []) .empty s :=
  ⟨⟨.nil, .nil, .nil, .nil⟩, fun kind => by cases kind <;> exact .nil⟩

/-- Numbers are kept in later stores. -/
theorem Numbered.extend (now : Numbered whole owner ctx ds i s) (ext : s.Extends n addresses s') :
    Numbered whole owner ctx ds i s' where
  context := now.context.extend ext
  space kind := (now.space kind).imp fun _ _ holds => holds.extend ext

/-- Numbers are a matter of the address lists. -/
theorem Numbered.of_space (now : Numbered whole owner ctx ds i s)
    (same : ∀ kind, i'.space kind = i.space kind) : Numbered whole owner ctx ds i' s where
  context := now.context.of_space same
  space kind := same kind ▸ now.space kind

end

namespace Linking

variable {imports : ImportObject} {ctx whole : ModuleContext} {owner : Nat} {i i' : ModuleInstance}
  {s s' : Store} {field : Node} {fields : List Node} {ds : ExportKind → List Definition}

/-- A field continues each of the numberings with what it defines. -/
theorem numbered_allocateField (now : Numbered whole owner ctx ds i s) (signature : field.HasSignature)
    (const : ∀ decl t, field = .moduleImport decl → decl.descr ≠ .global ⟨t, .var⟩)
    (allocated : allocateField imports whole owner i field s = .ok i' s') :
    Numbered whole owner (ctx.addField field)
      (fun kind => ds kind ++ field.definition?.toList.filter (·.kind == kind)) i' s' := by
  obtain ⟨addresses, changes⟩ := confined_allocateField (n := 0) imports whole owner i field s
  rw [allocated] at changes
  have before := now.extend (Store.Extends.of_changes changes (Nat.zero_le _))
  have adds := allocateField_cases allocated
  cases defines : field.definition? with
  | none =>
    rw [defines] at adds
    exact Numbered.of_space ⟨before.context.addOther defines, fun kind => by simpa using before.space kind⟩ adds
  | some d =>
    rw [defines] at adds
    obtain ⟨a, rfl, holds⟩ := adds
    refine ⟨before.context.addField defines signature const holds, fun kind => ?_⟩
    rw [ModuleInstance.space_push]
    refine List.rel_append (before.space kind) ?_
    by_cases same : d.kind = kind
    · simpa [same] using holds
    · simp [same]

/-- By induction on the fields, each of which continues the numberings. -/
theorem numbered_allocateFields (now : Numbered whole owner ctx ds i s)
    (signatures : ∀ field ∈ fields, field.HasSignature)
    (const : ∀ decl t, .moduleImport decl ∈ fields → decl.descr ≠ .global ⟨t, .var⟩)
    (allocated : allocateFields imports whole owner i fields s = .ok i' s') :
    Numbered whole owner (fields.foldl ModuleContext.addField ctx)
      (fun kind => ds kind ++ definitionsOf kind fields) i' s' := by
  induction fields generalizing ctx ds i s with
  | nil =>
    obtain ⟨rfl, rfl⟩ := run_pure_eq_ok_iff.1 allocated
    simpa [definitionsOf] using now
  | cons field fields ih =>
    rw [allocateFields, run_bind_eq_ok_iff] at allocated
    obtain ⟨j, t, first, rest⟩ := allocated
    have next := numbered_allocateField now (signatures field (List.mem_cons_self ..))
      (fun decl t here => const decl t (here ▸ List.mem_cons_self ..)) first
    have after := ih next (fun other inside => signatures other (List.mem_cons_of_mem _ inside))
      (fun decl t inside => const decl t (List.mem_cons_of_mem _ inside)) rest
    simpa only [List.foldl_cons, definitionsOf_cons, List.append_assoc] using after

/-- Exports add no addresses. -/
theorem space_of_recordExports {refuseI64 : Bool} (recorded : recordExports refuseI64 i fields s = .ok i' s')
    (kind : ExportKind) : i'.space kind = i.space kind := by
  induction fields generalizing i s with
  | nil =>
    obtain ⟨rfl, rfl⟩ := run_pure_eq_ok_iff.1 recorded
    rfl
  | cons field fields ih =>
    cases field with
    | moduleExport decl =>
      rw [recordExports, run_bind_eq_ok_iff] at recorded
      obtain ⟨e, t, -, rest⟩ := recorded
      refine (ih rest).trans ?_
      cases kind <;> rfl
    | _ => exact ih recorded

/-- Allocation numbers the definitions of a module in the order of its fields. -/
theorem numbered_allocate {refuseI64 : Bool} {m : Module} (signatures : ∀ field ∈ m.fields, field.HasSignature)
    (const : ∀ decl t, .moduleImport decl ∈ m.fields → decl.descr ≠ .global ⟨t, .var⟩)
    (allocated : allocate imports refuseI64 m s = .ok owner s') :
    owner < s'.instances.size ∧ ∃ i, s'.instance? owner = .ok i ∧
      Numbered (.ofModule m) owner (.ofModule m) (definitionsOf · m.fields) i s' := by
  rw [allocate, run_bind_eq_ok_iff] at allocated
  obtain ⟨_, t, added, allocated⟩ := allocated
  cases onStore_eq_ok_iff.1 added
  obtain ⟨i, u, fields, allocated⟩ := run_bind_eq_ok_iff.1 allocated
  obtain ⟨j, v, recorded, allocated⟩ := run_bind_eq_ok_iff.1 allocated
  obtain ⟨_, w, modified, allocated⟩ := run_bind_eq_ok_iff.1 allocated
  cases modified
  obtain ⟨rfl, rfl⟩ := run_pure_eq_ok_iff.1 allocated
  have now := numbered_allocateFields (numbered_empty ..) signatures const fields
  -- What comes after the fields extends the store, with the instance still in its place.
  obtain ⟨first, changes⟩ := (confined_allocateFields (n := s.instances.size + 1) imports
    (.ofModule m) s.instances.size .empty m.fields).bind
      (fun i => confined_recordExports refuseI64 i m.fields) { s with instances := s.instances.push .empty }
  rw [bind_ok fields, recorded] at changes
  have known : s.instances.size < v.instances.size :=
    (Store.Extends.of_changes changes (by simp)).le_instances (by simp)
  obtain ⟨second, changes⟩ := confined_recordExports (n := 0) refuseI64 i m.fields u
  rw [recorded] at changes
  have ext := Store.Extends.of_changes
    (changes.trans (.setInstance v j (Nat.zero_le s.instances.size))) (Nat.zero_le _)
  refine ⟨by simpa [Store.setInstance] using known, j, by simp [Store.instance?, Store.setInstance, known], ?_⟩
  exact (now.extend ext).of_space (space_of_recordExports recorded)

end Linking

namespace Running

variable {σ : Type} {env : Environment σ} {fuel : Nat} {imports : ImportObject} {refuseI64 : Bool}
  {n m : Module} {before after : Store × σ} {owner : Nat}

/-- Finishing an instantiation gives back the instance that was allocated. -/
theorem eq_of_finish {owner' : Nat} (finished : finish env fuel m owner' before = .ok owner after) :
    owner' = owner := by
  obtain ⟨_, x, -, finished⟩ := run_bind_eq_ok_iff.1 finished
  cases started : m.start? with
  | none =>
    simp only [started] at finished
    exact (run_pure_eq_ok_iff.1 finished).1
  | some start =>
    simp only [started] at finished
    obtain ⟨_, _, -, finished⟩ := run_bind_eq_ok_iff.1 finished
    obtain ⟨_, _, -, finished⟩ := run_bind_eq_ok_iff.1 finished
    obtain ⟨_, _, -, finished⟩ := run_bind_eq_ok_iff.1 finished
    obtain ⟨_, _, -, finished⟩ := run_bind_eq_ok_iff.1 finished
    exact (run_pure_eq_ok_iff.1 finished).1

/-- The functions, tables, memories and globals of a module have the same numbers for the checker, in the
instance, and in a binary.  The binary lists them in the order of their numbers; one whose sizes and counts take
32 bits has at each number, as its own sections say, the entry of the definition. -/
theorem numbered_of_instantiate (resolved : n.resolve = .ok m) (valid : m.validate = .ok ())
    (done : instantiate env fuel imports refuseI64 m before = .ok owner after) :
    (∃ i, after.1.instance? owner = .ok i ∧
      Numbered (.ofModule m) owner (.ofModule m) (Binary.Encode.Fields.ofModule m).space i after.1) ∧
    ∀ bytes, Binary.encode m = .ok bytes → Binary.Lists (.ofModule m) bytes ∧
      (bytes.length < UInt32.size → ∃ ids ss types, Binary.Numbers bytes (.ofModule m) ids ss types) := by
  refine ⟨?_, fun bytes encoded => ⟨Binary.lists_of_encode encoded, Binary.numbers_of_encode encoded⟩⟩
  obtain ⟨s, world⟩ := before
  rw [instantiate_eq, run_bind_eq_ok_iff] at done
  obtain ⟨owner', ⟨s', world'⟩, allocated, finished⟩ := done
  obtain ⟨there, rfl⟩ := onLinking_eq_ok_iff.1 allocated
  obtain ⟨known, i, here, now⟩ := Linking.numbered_allocate (Module.hasSignature_of_resolve resolved)
    (fun decl t listed => Module.import_of_validate valid listed t) there
  obtain ⟨⟨addresses, changes⟩, -⟩ := respects_finish env.tame_any (owner' + 1) fuel m owner' (s', world)
  rw [finished] at changes
  obtain rfl := eq_of_finish finished
  have ext := Store.Extends.of_changes changes known
  have kept : after.1.instance? owner' = .ok i := by
    rw [← here, Store.instance?, Store.instance?, ← final_ok (ε := EngineError) owner' after,
      ext.instances owner' (Nat.lt_succ_self _)]
  refine ⟨i, kept, ?_⟩
  have spaces := now.extend ext
  rwa [funext (Module.space_of_validate valid)] at spaces

/-- A module that imports a function, and has a function that calls it, a variable, a memory and a table. -/
def caller : Module where
  id := none
  fields := [.moduleImport ⟨"m", "f", .func ⟨.ofString "f", .inline ⟨[], []⟩⟩, none⟩,
    .func (.ofString "g") (.inline ⟨[], []⟩) [] [.call (.ofNat 0)] none,
    .global ⟨.i32, .var⟩ [.instr "const" (some .i32) [.number (.ofInt 1)] none] none,
    .memory ⟨⟨0, some 1⟩, none⟩, .table ⟨"anyfunc", ⟨0, none⟩, none, []⟩]
  metadata := none

/-- An embedding whose functions do nothing. -/
def idle : Environment Unit := ⟨1, fun _ _ => pure [], fun _ _ world => world⟩

theorem numbered_of_instantiate_caller : ∃ after,
    instantiate idle 10 (ImportObject.empty.add "m" "f" (.func ⟨[], []⟩ 0)) false caller (.empty, ()) =
      .ok 0 after ∧
    (∃ i, after.1.instance? 0 = .ok i ∧
      Numbered (.ofModule caller) 0 (.ofModule caller) (Binary.Encode.Fields.ofModule caller).space i after.1) ∧
    ∀ bytes, Binary.encode caller = .ok bytes → Binary.Lists (.ofModule caller) bytes ∧
      (bytes.length < UInt32.size → ∃ ids ss types, Binary.Numbers bytes (.ofModule caller) ids ss types) := by
  have resolved : caller.resolve = .ok caller := rfl
  have valid : caller.validate = .ok () := by decide +kernel
  obtain ⟨after, done⟩ : ∃ after, instantiate idle 10
      (ImportObject.empty.add "m" "f" (.func ⟨[], []⟩ 0)) false caller (.empty, ()) = .ok 0 after := ⟨_, rfl⟩
  exact ⟨after, done, numbered_of_instantiate resolved valid done⟩

end Running

end WasmEngine
