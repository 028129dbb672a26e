import WasmEngine.Embedding.Instantiate
import WasmEngine.Proofs.Machine.StoreTyping
import WasmEngine.Proofs.Outcome

/-!
# Allocating a checked module

Fields are allocated in the order in which the context declares them, so that after each field the
instance holds what the context declares so far (`Allocating`).
-/

namespace WasmEngine

open Typing

/-- An import object offers a value under some name. -/
def ImportObject.Offers (imports : ImportObject) (value : ImportValue) : Prop :=
  ∃ module name, imports.find? module name = some value

/-- What validation and resolution tell about a module. -/
structure Module.Checked (m : Module) : Prop where
  explicit : Node.EveryIn Node.Explicit m.fields
  functions : ∀ f : Func, f.toNode ∈ m.fields → FunctionHasType (.ofModule m) f
  imports : ∀ decl t, .moduleImport decl ∈ m.fields → decl.descr ≠ .global ⟨t, .var⟩

/-! ## Entries that stay -/

/-- An entry stays what instances know of it. -/
def StoreEntry.Alike : StoreEntry → StoreEntry → Prop
  | .func f, e => e = .func f
  | .global g, e => ∃ v, e = .global { g with value := v }
  | .memory _, e => ∃ m, e = .memory m
  | .table _, e => ∃ t, e = .table t

/-- Every entry of a store stays what instances know of it. -/
def Store.Grows (s s' : Store) : Prop :=
  ∀ a e, s.get? a = some e → ∃ e', s'.get? a = some e' ∧ e.Alike e'

theorem StoreEntry.Alike.refl (e : StoreEntry) : e.Alike e := by
  cases e with
  | func f => exact rfl
  | global g => exact ⟨g.value, rfl⟩
  | memory m => exact ⟨m, rfl⟩
  | table t => exact ⟨t, rfl⟩

section

variable {s s' : Store} {ctx : ModuleContext} {i : ModuleInstance}

/-- A store that grows keeps its functions. -/
theorem Store.Grows.func (grows : s.Grows s') {a : Nat} {f : FuncInstance}
    (here : s.func a = .ok f) : s'.func a = .ok f := by
  obtain ⟨e, found, alike⟩ := grows a _ (Store.func_eq_ok.1 here)
  rw [Store.func_eq_ok, found, show e = .func f from alike]

/-- What an instance holds is there in a store that has grown. -/
theorem InstanceTyped.mono (typed : InstanceTyped s ctx i) (grows : s.Grows s') :
    InstanceTyped s' ctx i where
  funcs := typed.funcs.imp fun a type ⟨f, here, same⟩ => ⟨f, grows.func here, same⟩
  globals := typed.globals.imp fun a type ⟨g, here, same⟩ => by
    obtain ⟨e, found, v, rfl⟩ := grows a _ (Store.global_eq_ok.1 here)
    exact ⟨_, Store.global_eq_ok.2 found, same⟩
  mems := typed.mems.imp fun a _ ⟨m, here⟩ => by
    obtain ⟨e, found, n, rfl⟩ := grows a _ (Store.memory_eq_ok.1 here)
    exact ⟨n, Store.memory_eq_ok.2 found⟩
  tables := typed.tables.imp fun a _ ⟨t, here⟩ => by
    obtain ⟨e, found, u, rfl⟩ := grows a _ (Store.table_eq_ok.1 here)
    exact ⟨u, Store.table_eq_ok.2 found⟩

/-- One more function on both sides. -/
theorem InstanceTyped.addFunc (typed : InstanceTyped s ctx i) {a : Nat} {type : FuncType}
    (here : ∃ f, s.func a = .ok f ∧ f.type = type) (name : Identifier) :
    InstanceTyped s (ctx.addFunction name type) { i with funcs := i.funcs ++ [a] } :=
  { typed with funcs := List.rel_append typed.funcs (.cons here .nil) }

/-- One more global on both sides. -/
theorem InstanceTyped.addGlobal (typed : InstanceTyped s ctx i) {a : Nat} {type : GlobalType}
    (here : ∃ g, s.global a = .ok g ∧ g.valtype = type.valtype ∧
      (type.mutability = .var → g.mutability = .var)) (name : Option Identifier) :
    InstanceTyped s (ctx.addGlobal name type) { i with globals := i.globals ++ [a] } :=
  { typed with globals := List.rel_append typed.globals (.cons here .nil) }

/-- One more memory on both sides. -/
theorem InstanceTyped.addMemory (typed : InstanceTyped s ctx i) {a : Nat}
    (here : ∃ m, s.memory a = .ok m) (limits : Limits) :
    InstanceTyped s (ctx.addMemory limits) { i with mems := i.mems ++ [a] } :=
  { typed with mems := List.rel_append typed.mems (.cons here .nil) }

/-- One more table on both sides. -/
theorem InstanceTyped.addTable (typed : InstanceTyped s ctx i) {a : Nat}
    (here : ∃ t, s.table a = .ok t) (limits : Limits) :
    InstanceTyped s (ctx.addTable limits) { i with tables := i.tables ++ [a] } :=
  { typed with tables := List.rel_append typed.tables (.cons here .nil) }

/-! ## Adding an entry -/

theorem Store.grows_alloc (s : Store) (entry : StoreEntry) : s.Grows (s.alloc entry) := by
  intro a e here
  refine ⟨e, ?_, .refl e⟩
  rw [Store.get?_alloc, if_neg, here]
  exact Nat.ne_of_lt (Store.lt_size_of_get? here)

end

/-! ## The store during an allocation -/

/-- An entry that allocating a module made: a function of the import object or of the module, a
global with a value of its type, or a table of the import object or without elements. -/
def StoreEntry.Fresh (imports : ImportObject) (m : Module) (owner : Nat) : StoreEntry → Prop
  | .func ⟨type, .host handle⟩ => imports.Offers (.func type handle)
  | .func ⟨type, .wasm f o⟩ => o = owner ∧ f.toNode ∈ m.fields ∧
      type = (ModuleContext.ofModule m).funcType f.signature
  | .global g => g.value.type = g.valtype
  | .memory _ => True
  | .table t => ∀ b, some b ∈ t.slots → ∃ t', imports.Offers (.table t') ∧ some b ∈ t'.slots

/-- The store while a module is allocated whose fields so far declare a context. -/
structure Allocating (imports : ImportObject) (m : Module) (owner : Nat) (ctx : ModuleContext)
    (i : ModuleInstance) (s : Store) : Prop where
  held : InstanceTyped s ctx i
  entries : ∀ a e, s.get? a = some e → e.Fresh imports m owner
  known : owner < s.instances.size
  exports : i.exports = []

namespace Allocating

variable {imports : ImportObject} {m : Module} {owner : Nat} {ctx : ModuleContext}
  {i : ModuleInstance} {s : Store} {a : Nat}

/-- A new entry that the module may have changes nothing of what was allocated before. -/
theorem alloc (now : Allocating imports m owner ctx i s) {entry : StoreEntry}
    (fresh : entry.Fresh imports m owner) : Allocating imports m owner ctx i (s.alloc entry) where
  held := now.held.mono (s.grows_alloc entry)
  entries a e here := by
    rw [Store.get?_alloc] at here
    split_ifs at here
    · cases here
      exact fresh
    · exact now.entries a e here
  known := now.known
  exports := now.exports

/-- Allocation goes on behind a function that is in the store. -/
theorem addFunc (now : Allocating imports m owner ctx i s) {f : FuncInstance}
    (here : s.func a = .ok f) (name : Identifier) :
    Allocating imports m owner (ctx.addFunction name f.type) { i with funcs := i.funcs ++ [a] } s where
  held := now.held.addFunc ⟨f, here, rfl⟩ name
  entries := now.entries
  known := now.known
  exports := now.exports

/-- Allocation goes on behind a global that is in the store. -/
theorem addGlobal (now : Allocating imports m owner ctx i s) {g : GlobalInstance}
    {type : GlobalType} (here : s.global a = .ok g) (valtype : g.valtype = type.valtype)
    (mutability : type.mutability = .var → g.mutability = .var) (name : Option Identifier) :
    Allocating imports m owner (ctx.addGlobal name type) { i with globals := i.globals ++ [a] } s where
  held := now.held.addGlobal ⟨g, here, valtype, mutability⟩ name
  entries := now.entries
  known := now.known
  exports := now.exports

/-- Allocation goes on behind a memory that is in the store. -/
theorem addMemory (now : Allocating imports m owner ctx i s) {mem : Memory}
    (here : s.memory a = .ok mem) (limits : Limits) :
    Allocating imports m owner (ctx.addMemory limits) { i with mems := i.mems ++ [a] } s where
  held := now.held.addMemory ⟨mem, here⟩ limits
  entries := now.entries
  known := now.known
  exports := now.exports

/-- Allocation goes on behind a table that is in the store. -/
theorem addTable (now : Allocating imports m owner ctx i s) {t : Table}
    (here : s.table a = .ok t) (limits : Limits) :
    Allocating imports m owner (ctx.addTable limits) { i with tables := i.tables ++ [a] } s where
  held := now.held.addTable ⟨t, here⟩ limits
  entries := now.entries
  known := now.known
  exports := now.exports

end Allocating

namespace Linking

open Outcome

variable {α : Type} {imports : ImportObject} {m : Module} {owner : Nat} {ctx : ModuleContext}
  {i i' : ModuleInstance} {s s' : Store}

theorem ofResult_eq_ok_iff {r : Except Fault α} {a : α} :
    ofResult r s = .ok a s' ↔ r = .ok a ∧ s = s' := by
  cases r <;> simp [ofResult]

theorem ofResult_bind_eq_ok_iff {β : Type} {r : Except Fault α} {f : α → Linking β} {b : β} :
    (ofResult r >>= f) s = .ok b s' ↔ ∃ a, r = .ok a ∧ f a s = .ok b s' := by
  cases r with
  | ok v => simp [ofResult]
  | error e => simp [ofResult, run_bind_eq_ok_iff]

theorem get_bind_eq (f : Store → Linking α) : (get >>= f) s = f s s := rfl

/-- A new entry stands at the end of the store. -/
theorem malloc_bind_eq (entry : StoreEntry) (f : Nat → Linking α) :
    (onStore (Store.malloc entry) >>= f) s = f s.size (s.alloc entry) := rfl

/-- An imported function is one that is offered, of the declared type. -/
theorem importFunc_ok {decl : ModuleImport} {declared : FuncType} {value : ImportValue}
    (now : Allocating imports m owner ctx i s) (offers : imports.Offers value)
    (imported : importFunc decl i declared value s = .ok i' s') (name : Identifier) :
    Allocating imports m owner (ctx.addFunction name declared) i' s' := by
  unfold importFunc at imported
  split at imported
  · next type handle =>
    by_cases same : type = declared
    · subst same
      simp only [ne_eq, not_true_eq_false, if_false] at imported
      rw [malloc_bind_eq, run_pure_eq_ok_iff] at imported
      obtain ⟨rfl, rfl⟩ := imported
      have fresh : StoreEntry.Fresh imports m owner (.func ⟨type, .host handle⟩) := offers
      exact (now.alloc fresh).addFunc (Store.func_eq_ok.2 (s.get?_alloc_size _)) name
    · rw [if_pos same] at imported
      cases imported
  · next address =>
    rw [get_bind_eq, ofResult_bind_eq_ok_iff] at imported
    obtain ⟨f, here, imported⟩ := imported
    by_cases same : f.type = declared
    · subst same
      rw [if_neg (not_not.2 rfl), run_pure_eq_ok_iff] at imported
      obtain ⟨rfl, rfl⟩ := imported
      exact now.addFunc here name
    · rw [if_pos same] at imported
      cases imported
  · cases imported

/-- An imported global of the declared type is in the store. -/
theorem importGlobal_ok {decl : ModuleImport} {type : GlobalType} {value : ImportValue}
    (now : Allocating imports m owner ctx i s) (const : type.mutability ≠ .var)
    (imported : importGlobal decl i type value s = .ok i' s') (name : Option Identifier) :
    Allocating imports m owner (ctx.addGlobal name type) i' s' := by
  unfold importGlobal at imported
  split at imported
  · next v =>
    simp only [if_neg const] at imported
    rw [malloc_bind_eq, run_pure_eq_ok_iff] at imported
    obtain ⟨rfl, rfl⟩ := imported
    have fresh : StoreEntry.Fresh imports m owner
        (.global ⟨type.valtype, .const, v.cast type.valtype⟩) := Value.type_cast _ _
    exact (now.alloc fresh).addGlobal (Store.global_eq_ok.2 (s.get?_alloc_size _)) rfl
      (fun var => absurd var const) name
  · next address =>
    rw [get_bind_eq, ofResult_bind_eq_ok_iff] at imported
    obtain ⟨g, here, imported⟩ := imported
    by_cases same : g.valtype = type.valtype
    · rw [if_neg (not_not.2 same), run_pure_eq_ok_iff] at imported
      obtain ⟨rfl, rfl⟩ := imported
      exact now.addGlobal here same (fun var => absurd var const) name
    · rw [if_pos same] at imported
      cases imported
  · cases imported

/-- An imported memory is in the store. -/
theorem importMemory_ok {decl : ModuleImport} {value : ImportValue}
    (now : Allocating imports m owner ctx i s)
    (imported : importMemory decl i value s = .ok i' s') (limits : Limits) :
    Allocating imports m owner (ctx.addMemory limits) i' s' := by
  unfold importMemory at imported
  split at imported
  · next memory =>
    rw [malloc_bind_eq, run_pure_eq_ok_iff] at imported
    obtain ⟨rfl, rfl⟩ := imported
    have fresh : StoreEntry.Fresh imports m owner (.memory memory) := trivial
    exact (now.alloc fresh).addMemory (Store.memory_eq_ok.2 (s.get?_alloc_size _)) limits
  · next address =>
    rw [get_bind_eq, ofResult_bind_eq_ok_iff] at imported
    obtain ⟨memory, here, imported⟩ := imported
    rw [run_pure_eq_ok_iff] at imported
    obtain ⟨rfl, rfl⟩ := imported
    exact now.addMemory here limits
  · cases imported

/-- An imported table is in the store. -/
theorem importTable_ok {decl : ModuleImport} {value : ImportValue}
    (now : Allocating imports m owner ctx i s) (offers : imports.Offers value)
    (imported : importTable decl i value s = .ok i' s') (limits : Limits) :
    Allocating imports m owner (ctx.addTable limits) i' s' := by
  unfold importTable at imported
  split at imported
  · next table =>
    rw [malloc_bind_eq, run_pure_eq_ok_iff] at imported
    obtain ⟨rfl, rfl⟩ := imported
    have fresh : StoreEntry.Fresh imports m owner (.table table) := fun b slot =>
      ⟨table, offers, slot⟩
    exact (now.alloc fresh).addTable (Store.table_eq_ok.2 (s.get?_alloc_size _)) limits
  · next address =>
    rw [get_bind_eq, ofResult_bind_eq_ok_iff] at imported
    obtain ⟨table, here, imported⟩ := imported
    rw [run_pure_eq_ok_iff] at imported
    obtain ⟨rfl, rfl⟩ := imported
    exact now.addTable here limits
  · cases imported

/-- An import that is resolved goes on with the allocation, whatever its kind. -/
theorem resolveImport_ok {decl : ModuleImport} (now : Allocating imports m owner ctx i s)
    (explicit : Node.HasSignature (.moduleImport decl))
    (const : ∀ t, decl.descr ≠ .global ⟨t, .var⟩) (whole : ModuleContext)
    (imported : resolveImport imports whole i decl s = .ok i' s') :
    Allocating imports m owner (ctx.addImport decl) i' s' := by
  obtain ⟨module, name, descr, id⟩ := decl
  simp only [resolveImport] at imported
  cases found : imports.find? module name with
  | none =>
    rw [found] at imported
    cases imported
  | some value =>
    rw [found] at imported
    have offers : imports.Offers value := ⟨module, name, found⟩
    cases descr with
    | func d =>
      obtain ⟨sig, inline⟩ : d.signature.IsInline := explicit
      have type : whole.funcType d.signature = ctx.funcType d.signature := by rw [inline]; rfl
      simp only [type] at imported
      exact importFunc_ok now offers imported _
    | global type =>
      have const : type.mutability ≠ .var := fun var => const type.valtype (by rw [← var])
      exact importGlobal_ok now const imported _
    | memory d => exact importMemory_ok now imported _
    | table t => exact importTable_ok now offers imported _

/-- A field that is allocated goes on with the allocation. -/
theorem allocateField_ok {field : Node} (now : Allocating imports m owner ctx i s)
    (member : field ∈ m.fields) (explicit : field.Every Node.Explicit)
    (const : ∀ decl t, field = .moduleImport decl → decl.descr ≠ .global ⟨t, .var⟩)
    (allocated : allocateField imports (.ofModule m) owner i field s = .ok i' s') :
    Allocating imports m owner (ctx.addField field) i' s' := by
  cases field with
  | typeDef t =>
    rw [allocateField, run_pure_eq_ok_iff] at allocated
    obtain ⟨rfl, rfl⟩ := allocated
    exact ⟨⟨now.held.funcs, now.held.globals, now.held.mems, now.held.tables⟩, now.entries,
      now.known, now.exports⟩
  | moduleImport decl =>
    exact resolveImport_ok now explicit.2 (const decl · rfl) _ allocated
  | func name sig locals body metadata =>
    rw [allocateField, malloc_bind_eq, run_pure_eq_ok_iff] at allocated
    obtain ⟨rfl, rfl⟩ := allocated
    obtain ⟨signature, rfl⟩ : sig.IsInline := explicit.1.2
    have fresh : StoreEntry.Fresh imports m owner
        (.func ⟨signature.funcType, .wasm ⟨name, .inline signature, locals, body, metadata⟩ owner⟩) :=
      ⟨rfl, member, rfl⟩
    exact (now.alloc fresh).addFunc (Store.func_eq_ok.2 (s.get?_alloc_size _)) name
  | table t =>
    rw [allocateField, malloc_bind_eq, run_pure_eq_ok_iff] at allocated
    obtain ⟨rfl, rfl⟩ := allocated
    have fresh : StoreEntry.Fresh imports m owner (.table (.create t.limits)) := fun b slot => by
      simp [Table.create] at slot
    exact (now.alloc fresh).addTable (Store.table_eq_ok.2 (s.get?_alloc_size _)) t.limits
  | memory d =>
    rw [allocateField, ofResult_bind_eq_ok_iff] at allocated
    obtain ⟨memory, -, allocated⟩ := allocated
    rw [malloc_bind_eq, run_pure_eq_ok_iff] at allocated
    obtain ⟨rfl, rfl⟩ := allocated
    have fresh : StoreEntry.Fresh imports m owner (.memory memory) := trivial
    exact (now.alloc fresh).addMemory (Store.memory_eq_ok.2 (s.get?_alloc_size _)) d.limits
  | global type init name =>
    rw [allocateField, get_bind_eq, ofResult_bind_eq_ok_iff] at allocated
    obtain ⟨value, -, allocated⟩ := allocated
    rw [malloc_bind_eq, run_pure_eq_ok_iff] at allocated
    obtain ⟨rfl, rfl⟩ := allocated
    have fresh : StoreEntry.Fresh imports m owner (.global ⟨type.valtype, type.mutability,
        value.elim (Value.default type.valtype) (Value.cast type.valtype)⟩) := by
      cases value with
      | none => exact Value.type_default _
      | some v => exact Value.type_cast _ _
    exact (now.alloc fresh).addGlobal (Store.global_eq_ok.2 (s.get?_alloc_size _)) rfl id name
  | start index =>
    obtain ⟨rfl, rfl⟩ := run_pure_eq_ok_iff.1 allocated
    exact ⟨⟨now.held.funcs, now.held.globals, now.held.mems, now.held.tables⟩, now.entries,
      now.known, now.exports⟩
  | _ =>
    obtain ⟨rfl, rfl⟩ := run_pure_eq_ok_iff.1 allocated
    exact now

/-- The fields of a module are allocated one after the other. -/
theorem allocateFields_ok {fields : List Node} (now : Allocating imports m owner ctx i s)
    (checked : m.Checked) (members : ∀ field ∈ fields, field ∈ m.fields)
    (allocated : allocateFields imports (.ofModule m) owner i fields s = .ok i' s') :
    Allocating imports m owner (fields.foldl ModuleContext.addField ctx) i' s' := by
  induction fields generalizing ctx i s with
  | nil =>
    rw [allocateFields, run_pure_eq_ok_iff] at allocated
    obtain ⟨rfl, rfl⟩ := allocated
    exact now
  | cons field fields ih =>
    rw [allocateFields, run_bind_eq_ok_iff] at allocated
    obtain ⟨j, t, first, rest⟩ := allocated
    have member := members field (List.mem_cons_self ..)
    refine ih (allocateField_ok now member (Node.everyIn_iff.1 checked.explicit _ member) ?_ first)
      (fun other inside => members other (List.mem_cons_of_mem _ inside)) rest
    rintro decl type rfl
    exact checked.imports decl type member

end Linking

end WasmEngine
