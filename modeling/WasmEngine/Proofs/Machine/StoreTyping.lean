import Mathlib.Data.List.Forall2
import WasmEngine.Proofs.Machine.StoreExtension
import WasmEngine.Proofs.Syntax.Everywhere
import WasmEngine.Proofs.Typing.Declarative

/-!
# Stores that checked code may run in

`StoreTyped` is what code relies on in a store: its functions are checked against the instances that
they belong to, its globals hold values of their types, and its tables hold functions.  A run only
assigns globals and changes memories, and `Evolves` says so.
-/

namespace WasmEngine

open Typing

/-- The addresses of an instance hold what a module declares. -/
structure InstanceTyped (s : Store) (ctx : ModuleContext) (m : ModuleInstance) : Prop where
  funcs : List.Forall₂ (fun a type => ∃ f, s.func a = .ok f ∧ f.type = type) m.funcs ctx.funcs
  globals : List.Forall₂ (fun a (type : GlobalType) => ∃ g, s.global a = .ok g ∧
    g.valtype = type.valtype ∧ (type.mutability = .var → g.mutability = .var)) m.globals ctx.globals
  mems : List.Forall₂ (fun a _ => ∃ mem, s.memory a = .ok mem) m.mems ctx.mems
  tables : List.Forall₂ (fun a _ => ∃ t, s.table a = .ok t) m.tables ctx.tables

/-- A function that may be called: it is offered by the embedding, or its body is checked against
the declarations that its instance holds. -/
def FunctionTyped (offered : FuncType → Nat → Prop) (s : Store) (f : FuncInstance) : Prop :=
  match f.code with
  | .host handle => offered f.type handle
  | .wasm func owner => ∃ ctx m, s.instance? owner = .ok m ∧ InstanceTyped s ctx m ∧
      f.type = ctx.funcType func.signature ∧ FunctionHasType ctx func ∧
      Node.EveryIn Node.Explicit func.body

/-- What checked code relies on in a store. -/
structure StoreTyped (offered : FuncType → Nat → Prop) (s : Store) : Prop where
  functions : ∀ a f, s.func a = .ok f → FunctionTyped offered s f
  globals : ∀ a g, s.global a = .ok g → g.value.type = g.valtype
  tables : ∀ a t, s.table a = .ok t → ∀ b, some b ∈ t.slots → ∃ f, s.func b = .ok f

/-- Nothing changed but the values of globals and the contents of memories. -/
structure Evolves (s s' : Store) : Prop where
  instances : ∀ a, s'.instance? a = s.instance? a
  functions : ∀ a, s'.func a = s.func a
  tables : ∀ a, s'.table a = s.table a
  globals : ∀ a g, s.global a = .ok g → ∃ v, s'.global a = .ok { g with value := v } ∧
    (g.value.type = g.valtype → v.type = g.valtype)
  memories : ∀ a m, s.memory a = .ok m → ∃ m', s'.memory a = .ok m'

/-- An index with a number resolves to it. -/
theorem Index.resolved_eq_ok {index : Index} {i : Nat} (resolved : index.number? = some i) :
    index.resolved = .ok i := by
  cases index with
  | number n => exact congrArg Except.ok (Option.some.inj resolved)
  | identifier id => cases resolved

namespace Table

/-- What a table gives is in one of its slots. -/
theorem mem_of_get {t : Table} {i address : Nat} (slot : t.get i = .ok address) :
    some address ∈ t.slots := by
  unfold Table.get at slot
  split at slot
  · next found =>
    cases slot
    exact List.mem_of_getElem? found
  · cases slot

/-- A table fails with an undefined element only. -/
theorem eq_of_get_error {t : Table} {i : Nat} {e : Fault} (slot : t.get i = .error e) :
    e = .trap .undefinedElement := by
  unfold Table.get at slot
  split at slot
  · cases slot
  · cases slot
    rfl

end Table

namespace InstanceTyped

variable {s : Store} {ctx : ModuleContext} {m : ModuleInstance} {i : Nat}

/-- A declared function is in the instance and in the store, at its type. -/
theorem func (typed : InstanceTyped s ctx m) {type : FuncType} (declared : ctx.func? i = some type) :
    ∃ a f, m.func i = .ok a ∧ s.func a = .ok f ∧ f.type = type := by
  obtain ⟨known, rfl⟩ := List.getElem?_eq_some_iff.1 declared
  have bound : i < m.funcs.length := by
    rw [typed.funcs.length_eq]
    exact known
  obtain ⟨f, here, type⟩ := typed.funcs.get bound known
  refine ⟨m.funcs[i], f, ?_, here, type⟩
  simp only [ModuleInstance.func, List.getElem?_eq_getElem bound]

/-- Every function of the instance is declared. -/
theorem func? (typed : InstanceTyped s ctx m) {a : Nat} (found : m.func i = .ok a) :
    ∃ f, s.func a = .ok f ∧ ctx.func? i = some f.type := by
  unfold ModuleInstance.func at found
  split at found
  · next address here =>
    cases found
    obtain ⟨bound, rfl⟩ := List.getElem?_eq_some_iff.1 here
    have known : i < ctx.funcs.length := typed.funcs.length_eq ▸ bound
    obtain ⟨f, here, type⟩ := typed.funcs.get bound known
    refine ⟨f, here, ?_⟩
    rw [ModuleContext.func?, List.getElem?_eq_getElem known, type]
    rfl
  · cases found

/-- A declared global is in the instance and in the store, at its type and not less mutable. -/
theorem global (typed : InstanceTyped s ctx m) {type : GlobalType}
    (declared : ctx.global? i = some type) :
    ∃ a g, m.global i = .ok a ∧ s.global a = .ok g ∧ g.valtype = type.valtype ∧
      (type.mutability = .var → g.mutability = .var) := by
  obtain ⟨known, rfl⟩ := List.getElem?_eq_some_iff.1 declared
  have bound : i < m.globals.length := by
    rw [typed.globals.length_eq]
    exact known
  obtain ⟨g, here, valtype, mutability⟩ := typed.globals.get bound known
  refine ⟨m.globals[i], g, ?_, here, valtype, mutability⟩
  simp only [ModuleInstance.global, List.getElem?_eq_getElem bound]

/-- A declared memory is in the instance and in the store. -/
theorem memory (typed : InstanceTyped s ctx m) (declared : ctx.mems ≠ []) :
    ∃ a mem, m.memory = .ok a ∧ s.memory a = .ok mem := by
  obtain ⟨limits, others, declared⟩ := List.exists_cons_of_ne_nil declared
  obtain ⟨a, rest, here, -, held⟩ := List.forall₂_cons_right_iff.1 (declared ▸ typed.mems)
  obtain ⟨mem, here⟩ := here
  refine ⟨a, mem, ?_, here⟩
  simp only [ModuleInstance.memory, held, List.head?_cons]

/-- A declared table is in the instance and in the store. -/
theorem table (typed : InstanceTyped s ctx m) (declared : ctx.tables ≠ []) :
    ∃ a t, m.table = .ok a ∧ s.table a = .ok t := by
  obtain ⟨limits, others, declared⟩ := List.exists_cons_of_ne_nil declared
  obtain ⟨a, rest, here, -, held⟩ := List.forall₂_cons_right_iff.1 (declared ▸ typed.tables)
  obtain ⟨t, here⟩ := here
  refine ⟨a, t, ?_, here⟩
  simp only [ModuleInstance.table, held, List.head?_cons]

end InstanceTyped

namespace Evolves

variable {s s' s'' : Store}

/-- A store evolves into itself. -/
theorem refl (s : Store) : Evolves s s where
  instances _ := rfl
  functions _ := rfl
  tables _ := rfl
  globals _ g here := ⟨g.value, here, id⟩
  memories _ m here := ⟨m, here⟩

/-- Evolving is transitive. -/
theorem trans (first : Evolves s s') (second : Evolves s' s'') : Evolves s s'' where
  instances a := (second.instances a).trans (first.instances a)
  functions a := (second.functions a).trans (first.functions a)
  tables a := (second.tables a).trans (first.tables a)
  globals a g here := by
    obtain ⟨v, found, typed⟩ := first.globals a g here
    obtain ⟨w, after, keeps⟩ := second.globals a _ found
    exact ⟨w, after, fun type => keeps (typed type)⟩
  memories a m here := by
    obtain ⟨_, found⟩ := first.memories a m here
    exact second.memories a _ found

/-- Replacing a memory lets a store evolve. -/
theorem put_memory {a : Nat} {m : Memory} (here : s.get? a = some (.memory m)) (m' : Memory) :
    Evolves s (s.put a (.memory m')) := by
  have known := Store.lt_size_of_get? here
  refine ⟨fun _ => rfl, fun b => ?_, fun b => ?_, fun b g found => ?_, fun b n found => ?_⟩
  · simp only [Store.func, Store.get?_put known]
    split_ifs with same <;> simp [same, here]
  · simp only [Store.table, Store.get?_put known]
    split_ifs with same <;> simp [same, here]
  · rw [Store.global_eq_ok] at found
    refine ⟨g.value, ?_, id⟩
    rw [Store.global_eq_ok, Store.get?_put known, if_neg, found]
    rintro rfl
    rw [here] at found
    cases found
  · rw [Store.memory_eq_ok] at found
    simp only [Store.memory_eq_ok, Store.get?_put known]
    split_ifs
    · exact ⟨m', rfl⟩
    · exact ⟨n, found⟩

/-- Replacing the value of a global by one of its type lets a store evolve. -/
theorem put_global {a : Nat} {g : GlobalInstance} (here : s.get? a = some (.global g)) {v : Value}
    (typed : v.type = g.valtype) : Evolves s (s.put a (.global { g with value := v })) := by
  have known := Store.lt_size_of_get? here
  refine ⟨fun _ => rfl, fun b => ?_, fun b => ?_, fun b h found => ?_, fun b n found => ?_⟩
  · simp only [Store.func, Store.get?_put known]
    split_ifs with same <;> simp [same, here]
  · simp only [Store.table, Store.get?_put known]
    split_ifs with same <;> simp [same, here]
  · rw [Store.global_eq_ok] at found
    simp only [Store.global_eq_ok, Store.get?_put known]
    split_ifs with same
    · subst same
      rw [here] at found
      cases found
      exact ⟨v, rfl, fun _ => typed⟩
    · exact ⟨h.value, found, id⟩
  · rw [Store.memory_eq_ok] at found
    refine ⟨n, ?_⟩
    rw [Store.memory_eq_ok, Store.get?_put known, if_neg, found]
    rintro rfl
    rw [here] at found
    cases found

/-- A write into a memory succeeds or is out of its bounds. -/
theorem writeMemory {a : Nat} {m : Memory} (here : s.memory a = .ok m) (position : Nat)
    (bytes : List UInt8) :
    (∃ s', Store.writeMemory a position bytes s = .ok () s' ∧ Evolves s s') ∨
      Store.writeMemory a position bytes s = .error (.trap .outOfBounds) s := by
  simp only [Store.writeMemory_eq, here]
  split_ifs with within
  · exact .inl ⟨_, rfl, put_memory (Store.memory_eq_ok.1 here) _⟩
  · exact .inr rfl

/-- Writing to a memory lets a store evolve. -/
theorem of_writeMemory {a position : Nat} {bytes : List UInt8}
    (written : Store.writeMemory a position bytes s = .ok () s') : Evolves s s' := by
  cases here : s.memory a with
  | error e =>
    simp only [Store.writeMemory, here] at written
    cases written
  | ok m =>
    obtain ⟨t, runs, evolves⟩ | fails := writeMemory here position bytes
    · rw [runs] at written
      cases written
      exact evolves
    · rw [fails] at written
      cases written

/-- Growing a memory that is there succeeds, and lets the store evolve. -/
theorem growMemory {a : Nat} {m : Memory} (here : s.memory a = .ok m) (delta : Nat) :
    ∃ previous s', Store.growMemory a delta s = .ok previous s' ∧ Evolves s s' := by
  refine ⟨(m.grow delta).1, s.put a (.memory (m.grow delta).2), ?_,
    put_memory (Store.memory_eq_ok.1 here) _⟩
  simp only [Store.growMemory_eq, here]

/-- Assigning a mutable global succeeds. -/
theorem assign {a : Nat} {g : GlobalInstance} (here : s.global a = .ok g)
    (mutable : g.mutability = .var) (v : Value) :
    ∃ s', Store.assign a v s = .ok () s' ∧ Evolves s s' := by
  refine ⟨s.put a (.global { g with value := v.cast g.valtype }), ?_,
    put_global (Store.global_eq_ok.1 here) (Value.type_cast _ _)⟩
  simp only [Store.assign_eq, here, mutable, reduceCtorEq, if_false]

end Evolves

end WasmEngine
