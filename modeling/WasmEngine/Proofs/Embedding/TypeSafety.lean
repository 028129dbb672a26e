import WasmEngine.Proofs.Embedding.Compiled
import WasmEngine.Proofs.Embedding.Linked
import WasmEngine.Proofs.Machine.Invocation

/-!
# Exported functions are type safe

A function that an instance of a compiled module exports returns values of the result types that the
module declares, or ends with a trap, with too deep a nesting, or with the error of a function of the
embedding (`returns_of_export`).
-/

namespace WasmEngine.Running

open Structured Outcome

variable {σ : Type} {env : Environment σ}

/-- A call from outside that ended did so with values of the types or in a permitted way. -/
def Returns (env : Environment σ) (offered : FuncType → Nat → Prop) (ts : List Valtype) :
    EStateM.Result EngineError (Store × σ) (List Value) → Prop
  | .ok vs _ => vs.map Value.type = ts
  | .error e _ => ∃ h, e = .run h ∧ Permitted env offered h

/-- A call from outside that ended and left a store, with results or an error. -/
def Leaves (env : Environment σ) (address : Nat) (args : List Value) (s s' : Store) : Prop :=
  ∃ fuel w w', (∃ vs, invoke env fuel address args (s, w) = .ok vs (s', w')) ∨
    ∃ e, invoke env fuel address args (s, w) = .error (.run (.fault e)) (s', w')

/-- A store after calls from outside, whatever they call and however they ended, and writes into
memories. -/
inductive Later (env : Environment σ) (start : Store) : Store → Prop
  | refl : Later env start start
  | call {address : Nat} {args : List Value} {s s' : Store} (earlier : Later env start s)
      (leaves : Leaves env address args s s') : Later env start s'
  | write {address position : Nat} {bytes : List UInt8} {s s' : Store}
      (earlier : Later env start s)
      (written : Store.writeMemory address position bytes s = .ok () s') : Later env start s'

theorem invoke_eq_ok_iff {fuel address : Nat} {args vs : List Value} {s s' : Store × σ} :
    invoke env fuel address args s = .ok vs s' ↔
      WasmEngine.invoke env fuel address args s = .ok vs s' := by
  unfold invoke
  cases WasmEngine.invoke env fuel address args s <;> simp

theorem invoke_eq_error_iff {fuel address : Nat} {args : List Value} {s s' : Store × σ} {h : Halt} :
    invoke env fuel address args s = .error (.run h) s' ↔
      WasmEngine.invoke env fuel address args s = .error h s' := by
  unfold invoke
  cases WasmEngine.invoke env fuel address args s <;> simp

variable {offered : FuncType → Nat → Prop} {start s s' : Store}

/-- A store that a call of the embedding leaves has evolved. -/
theorem Leaves.evolves (typed : StoreTyped offered start) (honest : Honest env offered)
    {address : Nat} {args : List Value} (leaves : Leaves env address args s s')
    (evolves : Evolves start s) : Evolves start s' := by
  obtain ⟨fuel, w, w', ends⟩ := leaves
  simp only [invoke_eq_ok_iff, invoke_eq_error_iff] at ends
  exact evolves_of_invoke (s := (s, w)) typed honest evolves ends

/-- A store at any later point of a run has evolved. -/
theorem Later.evolves (typed : StoreTyped offered start) (honest : Honest env offered)
    {before : Store} (evolves : Evolves start before) (later : Later env before s) :
    Evolves start s := by
  induction later with
  | refl => exact evolves
  | call _ leaves ih => exact leaves.evolves typed honest ih
  | write _ written ih => exact ih.trans (.of_writeMemory written)

/-- A call of a function of a typed store with arguments enough returns results of its type, or fails as it may.
-/
theorem returns_invoke (typed : StoreTyped offered start) (honest : Honest env offered)
    {address : Nat} {callee : FuncInstance} (here : start.func address = .ok callee)
    {args : List Value} (count : args.length = callee.type.args.length)
    (evolves : Evolves start s) (fuel : Nat) (w : σ) :
    Returns env offered callee.type.result (invoke env fuel address args (s, w)) := by
  have ends := ends_invoke (s := (s, w)) typed honest here count evolves fuel
  unfold invoke
  cases called : WasmEngine.invoke env fuel address args (s, w) with
  | ok vs after =>
    rw [called] at ends
    exact ends.1
  | error h after =>
    rw [called] at ends
    cases h with
    | outOfFuel => exact ⟨.outOfFuel, rfl, .outOfFuel⟩
    | fault e => exact ⟨.fault e, rfl, ends.1⟩

/-! ## Instances -/

/-- A look-up while an instance is made leaves everything. -/
theorem onLinking_ofResult_eq_ok_iff {α : Type} {r : Except Fault α} {a : α} {w w' : σ} :
    onLinking (Linking.ofResult r) (s, w) = .ok a (s', w') ↔ r = .ok a ∧ s = s' ∧ w = w' := by
  rw [onLinking_eq_ok_iff, Linking.ofResult_eq_ok_iff, and_assoc]

variable {m : Module} {imports : ImportObject}

/-- An instance of a module, in a store that evolved from the one that it was linked into. -/
theorem linked_of_instantiate (checked : m.Checked) {fuel owner : Nat} {w w' : σ}
    (instantiated : instantiate env fuel imports false m (.empty, w) = .ok owner (s, w'))
    (honest : Honest env imports.OffersFunc)
    (tables : ∀ owner s, Linking.allocate imports false m .empty = .ok owner s →
      imports.TablesHold s) :
    ∃ i start, Linked imports.OffersFunc m owner i start ∧ Evolves start s ∧
      ∀ e ∈ i.exports, ExportsOf i m.fields e := by
  obtain ⟨a, ⟨t, v⟩, first, rest⟩ := run_bind_eq_ok_iff.1 instantiated
  obtain ⟨allocated, rfl⟩ := onLinking_eq_ok_iff.1 first
  obtain ⟨i, linked, exported⟩ := Linking.allocate_linked checked allocated (tables a t allocated)
  obtain ⟨⟨⟩, ⟨u, v⟩, second, rest⟩ := run_bind_eq_ok_iff.1 rest
  obtain ⟨written, rfl⟩ := onLinking_eq_ok_iff.1 second
  obtain ⟨start, linked, evolves⟩ := Linking.writeSegments_linked linked written
  cases index : m.start? with
  | none =>
    simp only [index, run_pure_eq_ok_iff] at rest
    obtain ⟨rfl, same⟩ := rest
    cases same
    exact ⟨i, start, linked, evolves, exported⟩
  | some index =>
    simp only [index] at rest
    obtain ⟨j, ⟨_, _⟩, third, rest⟩ := run_bind_eq_ok_iff.1 rest
    obtain ⟨known, rfl⟩ := onLinking_eq_ok_iff.1 third
    rw [Linking.get_bind_eq, Linking.ofResult_eq_ok_iff] at known
    obtain ⟨-, rfl⟩ := known
    obtain ⟨n, ⟨_, _⟩, fourth, rest⟩ := run_bind_eq_ok_iff.1 rest
    obtain ⟨-, rfl, rfl⟩ := onLinking_ofResult_eq_ok_iff.1 fourth
    obtain ⟨address, ⟨_, _⟩, fifth, rest⟩ := run_bind_eq_ok_iff.1 rest
    obtain ⟨-, rfl, rfl⟩ := onLinking_ofResult_eq_ok_iff.1 fifth
    obtain ⟨vs, ⟨_, _⟩, called, rest⟩ := run_bind_eq_ok_iff.1 rest
    obtain ⟨rfl, same⟩ := run_pure_eq_ok_iff.1 rest
    cases same
    have leaves : Leaves env address [] u s := ⟨fuel, _, _, .inl ⟨vs, called⟩⟩
    exact ⟨i, start, linked, leaves.evolves linked.typed honest evolves, exported⟩

/-- **Exported functions are type safe**: in a store after the instantiation of a compiled module, a
function that the instance exports stands for an export of the module.  However it is called with as
many arguments as that declares, it returns values of the declared types unless it stops in a
permitted way. -/
theorem returns_of_export (compiled : Engine.Compiled m) {fuel owner : Nat} {w w' : σ}
    (instantiated : instantiate env fuel imports false m (.empty, w) = .ok owner (s, w'))
    (honest : Honest env imports.OffersFunc)
    (tables : ∀ owner s, Linking.allocate imports false m .empty = .ok owner s →
      imports.TablesHold s)
    {now : Store} (later : Later env s now) {i : ModuleInstance} (here : now.instance? owner = .ok i)
    {name : String} {address : Nat} (exported : i.export? name = some ⟨.func, address⟩) :
    ∃ decl n type, .moduleExport decl ∈ m.fields ∧ decl.name = name ∧ decl.descr.kind = .func ∧
      decl.descr.id.number? = some n ∧ (ModuleContext.ofModule m).func? n = some type ∧
      ∀ fuel args w, args.length = type.args.length →
        Returns env imports.OffersFunc type.result (invoke env fuel address args (now, w)) := by
  obtain ⟨j, start, linked, evolves, exports⟩ :=
    linked_of_instantiate compiled.checked instantiated honest tables
  have evolves := later.evolves linked.typed honest evolves
  obtain rfl : j = i := by
    have known := (evolves.instances owner).trans linked.here
    exact Except.ok.inj (known.symm.trans here)
  obtain ⟨e, listed, value⟩ := Option.map_eq_some_iff.1 exported
  obtain ⟨decl, member, named, kind, function⟩ := exports e (List.mem_of_find?_eq_some listed)
  have isFunc : e.value.kind = .func := by rw [value]
  obtain ⟨n, number, found⟩ := function isFunc
  rw [value] at found
  obtain ⟨f, known, declared⟩ := linked.held.func? found
  have same : e.name = name := by simpa using List.find?_some listed
  refine ⟨decl, n, f.type, member, named.trans same, kind.trans isFunc, number, declared, ?_⟩
  exact fun fuel args w count => returns_invoke linked.typed honest known count evolves fuel w

/-! A module whose export divides its argument by what an imported function gives. -/

/-- What a fresh instance of a binary module exports under a name. -/
def exported? (env : Environment Unit) (imports : ImportObject) (bytes : List UInt8) (name : String) :
    Option Extern :=
  match Engine.compile .default bytes with
  | .error _ => none
  | .ok m =>
    match instantiate env 0 imports false m (.empty, ()) with
    | .error .. => none
    | .ok owner (s, _) => (s.instance? owner).toOption.bind (·.export? name)

/-- An export is one of an instance of a compiled module. -/
theorem exists_of_exported? {env : Environment Unit} {bytes : List UInt8} {name : String} {e : Extern}
    (found : exported? env imports bytes name = some e) :
    ∃ m owner s i, Engine.Compiled m ∧
      instantiate env 0 imports false m (.empty, ()) = .ok owner (s, ()) ∧
      s.instance? owner = .ok i ∧ i.export? name = some e := by
  unfold exported? at found
  split at found
  · cases found
  · next m compiled =>
    split at found
    · cases found
    · next owner s w instantiated =>
      obtain ⟨i, here, exported⟩ := Option.bind_eq_some_iff.1 found
      refine ⟨m, owner, s, i, .binary compiled, instantiated, ?_, exported⟩
      cases known : s.instance? owner with
      | ok j =>
        rw [known] at here
        exact congrArg Except.ok (Option.some.inj here)
      | error e =>
        rw [known] at here
        cases here

/-- The bytes of the module. -/
def quotient : List UInt8 :=
  [0, 0x61, 0x73, 0x6d, 1, 0, 0, 0, 1, 10, 2, 0x60, 0, 1, 0x7f, 0x60, 1, 0x7f, 1, 0x7f,
    2, 7, 1, 1, 0x68, 1, 0x66, 0, 0, 3, 2, 1, 1, 7, 5, 1, 1, 0x61, 0, 1,
    10, 9, 1, 7, 0, 0x20, 0, 0x10, 0, 0x6d, 0x0b]

/-- The function that it imports. -/
def seven : Environment Unit := ⟨300, fun _ _ => return [.i32 7], fun _ _ w => w⟩

/-- An import object with that function. -/
def offersSeven : ImportObject := ImportObject.empty.add "h" "f" (.func ⟨[], [.i32]⟩ 0)

theorem offered_of_offersSeven {value : ImportValue} (offers : offersSeven.Offers value) :
    value = .func ⟨[], [.i32]⟩ 0 := by
  obtain ⟨module, name, found⟩ := offers
  unfold ImportObject.find? offersSeven ImportObject.add at found
  rw [List.lookup_cons] at found
  split at found
  · exact (Option.some.inj found).symm
  · cases found

theorem returns_of_export_quotient : ∃ m owner s i, Engine.Compiled m ∧
    instantiate seven 0 offersSeven false m (.empty, ()) = .ok owner (s, ()) ∧
    s.instance? owner = .ok i ∧ i.export? "a" = some ⟨.func, 1⟩ ∧
    ∃ decl n type, .moduleExport decl ∈ m.fields ∧ decl.name = "a" ∧ decl.descr.kind = .func ∧
      decl.descr.id.number? = some n ∧ (ModuleContext.ofModule m).func? n = some type ∧
      ∀ fuel args w, args.length = type.args.length →
        Returns seven offersSeven.OffersFunc type.result (invoke seven fuel 1 args (s, w)) := by
  have found : exported? seven offersSeven quotient "a" = some ⟨.func, 1⟩ := by decide +kernel
  obtain ⟨m, owner, s, i, compiled, instantiated, here, exported⟩ := exists_of_exported? found
  have honest : Honest seven offersSeven.OffersFunc := by
    intro type handle offered args w vs w' returned
    cases offered_of_offersSeven offered
    cases returned
    rfl
  have tables : ∀ s, offersSeven.TablesHold s := by
    intro s t offered
    cases offered_of_offersSeven offered
  exact ⟨m, owner, s, i, compiled, instantiated, here, exported,
    returns_of_export compiled instantiated honest (fun _ s _ => tables s) .refl here exported⟩

end WasmEngine.Running
