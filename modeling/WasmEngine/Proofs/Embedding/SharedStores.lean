import Mathlib
import WasmEngine.Embedding.Session
import WasmEngine.Proofs.Embedding.AllocationEffects
import WasmEngine.Proofs.Machine.Effects
import WasmEngine.Proofs.Machine.Invocation

/-!
# Stores that instances share

Instantiating a module, calling an export and writing to an exported memory change a store only by its own
operations, whether they succeed or fail, and whatever the functions of the embedding do on the way.  So what a
store holds for its earlier instances stays through every sequence of these (`Store.extends_afterUses`).  A
session is one embedding of this kind; as its functions use its other stores while one is lent out, the same
holds of all its stores together (`Session.extends_stores`).
-/

namespace WasmEngine

open Outcome

/-- A store was changed by its operations, with no instance before the `n`-th set up. -/
def Store.Changed (n : Nat) (s s' : Store) : Prop := ∃ addresses, s.Changes n addresses s'

namespace Store.Changed

variable {n : Nat} {s t u : Store}

theorem refl (n : Nat) (s : Store) : s.Changed n s := ⟨[], .refl s⟩

theorem trans : s.Changed n t → t.Changed n u → s.Changed n u
  | ⟨first, before⟩, ⟨second, after⟩ => ⟨first ++ second, before.trans after⟩

/-- Fewer addresses may be looked at. -/
theorem mono {n' : Nat} (le : n' ≤ n) : s.Changed n t → s.Changed n' t
  | ⟨addresses, changes⟩ => ⟨addresses, changes.mono le⟩

theorem writes (done : s.Writes t) : s.Changed n t := ⟨[], .writes done⟩

end Store.Changed

/-! ## Exports -/

namespace Store

/-- What an export name of an instance refers to. -/
def lookup (s : Store) (owner : Nat) (name : String) : Except Fault (Option Extern) := do
  return (← s.instance? owner).export? name

/-- The value of a global that an instance exports. -/
def exportedGlobal (s : Store) (owner : Nat) (name : String) : Except Fault Value := do
  match ← s.lookup owner name with
  | some ⟨.global, address⟩ => return (← s.global address).value
  | _ => throw (.unknownExport name)

/-- The address of a memory that an instance exports. -/
def exportedAddress (s : Store) (owner : Nat) (name : String) : Except Fault Nat := do
  match ← s.lookup owner name with
  | some ⟨.memory, address⟩ => return address
  | _ => throw (.unknownExport name)

/-- A memory that an instance exports. -/
def exportedMemory (s : Store) (owner : Nat) (name : String) : Except Fault Memory := do
  match ← s.lookup owner name with
  | some ⟨.memory, address⟩ => s.memory address
  | _ => throw (.unknownExport name)

end Store

namespace Running

variable {σ α : Type}

/-- What is found in the store. -/
def inStore (f : Store → Except Fault α) : Running σ α := onLinking do Linking.ofResult (f (← get))

/-- The address of a function that an instance exports and that may be called from outside. -/
def callable (refuseI64 : Bool) (owner : Nat) (name : String) : Running σ Nat := do
  match ← inStore fun s => s.lookup owner name with
  | some ⟨.func, address⟩ =>
    if refuseI64 then
      let f ← inStore fun s => s.func address
      if Session.usesI64 f.type then
        throw (.link .i64InSignature)
    return address
  | some _ => throw (.fault (.notAFunction name))
  | none => throw (.fault (.unknownExport name))

/-- Calls a function that an instance exports. -/
def callExport (env : Environment σ) (fuel : Nat) (refuseI64 : Bool) (owner : Nat) (name : String)
    (args : List Value) : Running σ (List Value) := do
  invoke env fuel (← callable refuseI64 owner name) args

/-- Writes bytes into a memory that an instance exports. -/
def writeExport (owner : Nat) (name : String) (offset : Nat) (bytes : List UInt8) : Running σ Unit := do
  let address ← inStore fun s => s.exportedAddress owner name
  onLinking (.onStore (Store.writeMemory address offset bytes))

section

variable {f : Store → Except Fault α} {x : Store × σ}

theorem inStore_ok {a : α} (found : f x.1 = .ok a) : inStore f x = .ok a x := by
  refine onLinking_ok (s := x.1) (show Linking.ofResult (f x.1) x.1 = _ from ?_)
  rw [found]
  rfl

/-- Looking into the store may fail, and changes nothing then. -/
theorem inStore_error {e : Fault} (failed : f x.1 = .error e) : inStore f x = .error (.fault e) x := by
  refine onLinking_error (s := x.1) (show Linking.ofResult (f x.1) x.1 = _ from ?_)
  rw [failed]
  rfl

end

end Running

/-! ## Instantiation -/

namespace Linking

variable {α β : Type} {n : Nat}

/-- A step of an instantiation changes the store by its operations. -/
abbrev Confined (n : Nat) (f : Linking α) : Prop := Respects (Store.Changed n) f

/-- A new entry changes none of the others. -/
theorem adds_changed (n : Nat) : Adds (Store.Changed n) where
  refl := .refl n
  trans := .trans
  alloc s _ type := ⟨_, .malloc (s := s) rfl type⟩

theorem confined_pure (a : α) : Confined n (pure a) := (adds_changed n).pure a

/-- Two steps of linking that are confined, one after the other. -/
theorem Confined.bind {f : Linking α} {g : α → Linking β} (first : Confined n f)
    (rest : ∀ a, Confined n (g a)) : Confined n (f >>= g) := Respects.bind Store.Changed.trans first rest

theorem confined_ofResult (r : Except Fault α) : Confined n (ofResult r) := (adds_changed n).ofResult r

theorem confined_onStore {f : StoreM α} (ok : ∀ {s s' a}, f s = .ok a s' → s.Changed n s')
    (error : ∀ {s s' e}, f s = .error e s' → s' = s) : Confined n (onStore f) := by
  intro s
  cases done : f s with
  | ok a s' =>
    simp only [onStore, done]
    exact ok done
  | error e s' =>
    simp only [onStore, done, error done]
    exact .refl n s

/-- Filling a table changes one entry, which stays a table of the same limits. -/
theorem confined_fillTable (address offset : Nat) (funcs : List Nat) :
    Confined n (onStore (Store.fillTable address offset funcs)) :=
  confined_onStore (fun done => ⟨_, .fill done⟩) Store.fillTable_error

/-- Writing to a memory changes one entry, which stays a memory. -/
theorem confined_writeMemory (address position : Nat) (bytes : List UInt8) :
    Confined n (onStore (Store.writeMemory address position bytes)) :=
  confined_onStore (fun done => .writes (.write done)) Store.writeMemory_error

/-- Allocating a field adds entries behind those of the store and changes none. -/
theorem confined_allocateField (imports : ImportObject) (ctx : ModuleContext) (owner : Nat)
    (m : ModuleInstance) (field : Node) : Confined n (allocateField imports ctx owner m field) :=
  (adds_changed n).allocateField imports ctx owner m field

/-- Allocating the fields of a module changes no entry that was there. -/
theorem confined_allocateFields (imports : ImportObject) (ctx : ModuleContext) (owner : Nat)
    (m : ModuleInstance) (fields : List Node) :
    Confined n (allocateFields imports ctx owner m fields) :=
  (adds_changed n).allocateFields imports ctx owner m fields

theorem confined_memoryAt (m : ModuleInstance) (i : Nat) : Confined n (memoryAt m i) :=
  (adds_changed n).memoryAt m i

theorem confined_tableAt (m : ModuleInstance) (i : Nat) : Confined n (tableAt m i) :=
  (adds_changed n).tableAt m i

theorem confined_recordExports (refuseI64 : Bool) (m : ModuleInstance) (fields : List Node) :
    Confined n (recordExports refuseI64 m fields) := (adds_changed n).recordExports refuseI64 m fields

/-- The instance that is set up is the one that was added, which is none of those that were there. -/
theorem changed_allocate (imports : ImportObject) (refuseI64 : Bool) (m : Module) (s : Store) :
    s.Changed s.instances.size (final (allocate imports refuseI64 m s)) := by
  have added : s.Changed s.instances.size { s with instances := s.instances.push .empty } :=
    ⟨[], .addInstance rfl⟩
  refine added.trans ?_
  refine Confined.bind (confined_allocateFields _ _ _ _ _) (fun _ =>
    (confined_recordExports _ _ _).bind fun i => Confined.bind (fun t => ?_) fun _ => confined_pure _) _
  exact ⟨[], .setInstance t i (Nat.le_refl _)⟩

/-- Element segments are confined to the tables that they fill. -/
theorem confined_writeElements (m : ModuleInstance) (next : Nat) (fields : List Node) :
    Confined n (writeElements m next fields) := by
  induction fields generalizing next with
  | nil => exact confined_pure _
  | cons field fields ih =>
    unfold writeElements
    split
    · contradiction
    · rename_i same
      cases same
      dsimp only
      split_ifs
      · exact (confined_ofResult _).bind fun _ => (confined_tableAt _ _).bind fun _ =>
          (confined_fillTable _ _ _).bind fun _ => ih _
      · exact ih _
    · rename_i same
      cases same
      exact (confined_ofResult _).bind fun _ => (confined_tableAt _ _).bind fun _ =>
        respects_look fun _ => (confined_ofResult _).bind fun _ => (confined_ofResult _).bind fun _ =>
          (confined_fillTable _ _ _).bind fun _ => ih _
    · rename_i same
      cases same
      exact ih _

/-- Data segments are confined to the memories that they fill. -/
theorem confined_writeData (m : ModuleInstance) (fields : List Node) :
    Confined n (writeData m fields) := by
  induction fields with
  | nil => exact confined_pure _
  | cons field fields ih =>
    unfold writeData
    split
    · contradiction
    · rename_i same
      cases same
      exact (confined_ofResult _).bind fun _ => (confined_memoryAt _ _).bind fun _ =>
        respects_look fun _ => (confined_ofResult _).bind fun _ =>
          (confined_writeMemory _ _ _).bind fun _ => ih
    · rename_i same
      cases same
      exact ih

/-- All segments together change entries, and neither remove nor retype one. -/
theorem confined_writeSegments (owner : Nat) (m : Module) : Confined n (writeSegments owner m) :=
  respects_look fun _ => (confined_ofResult _).bind fun _ =>
    (confined_writeElements _ _ _).bind fun _ => confined_writeData _ _

end Linking

/-! ## Runs and instantiations -/

section

variable {σ α : Type} {W : σ → σ → Prop} {n d : Nat}

/-- The store was changed by its operations, and the world as `W` says. -/
def ChangedWith (W : σ → σ → Prop) (n : Nat) (x y : Store × σ) : Prop :=
  x.1.Changed n y.1 ∧ W x.2 y.2

/-- The embedding changes the world as a preorder says. -/
structure Environment.Tame (env : Environment σ) (W : σ → σ → Prop) : Prop extends env.Keeps W where
  refl (w : σ) : W w w
  trans {u v w : σ} : W u v → W v w → W u w

/-- Where nothing is asked of the world, every embedding will do. -/
theorem Environment.tame_any (env : Environment σ) : env.Tame fun _ _ => True where
  call _ _ _ := trivial
  observe _ _ _ := trivial
  refl _ := trivial
  trans _ _ := trivial

namespace Environment.Tame

variable {env : Environment σ} (tame : env.Tame W)
include tame

/-- Changes in a row, of the store and of what the embedding has. -/
theorem changedWith_trans {x y z : Store × σ} (first : ChangedWith W n x y)
    (second : ChangedWith W n y z) : ChangedWith W n x z :=
  ⟨first.1.trans second.1, tame.trans first.2 second.2⟩

/-- What calls may do changes a store as instructions do. -/
theorem allows (n : Nat) : Exec.Allows env.maxDepth W fun x y : Execution σ =>
    ChangedWith W n (x.store, x.world) (y.store, y.world) where
  refl _ := ⟨.refl n _, tame.refl _⟩
  trans := tame.changedWith_trans
  stack _ _ := ⟨.refl n _, tame.refl _⟩
  world _ _ changes := ⟨.refl n _, changes⟩
  frames _ _ _ := ⟨.refl n _, tame.refl _⟩
  push _ _ _ := ⟨.refl n _, tame.refl _⟩
  store _ _ done := ⟨.writes done, tame.refl _⟩

/-- A call of a function changes a store as instructions do, whatever the functions of the embedding do in
theirs. -/
theorem respects_invoke (n fuel address : Nat) (args : List Value) :
    Respects (ChangedWith W n) (invoke env fuel address args) := by
  intro (store, world)
  have unchanged : ChangedWith W n (store, world) (store, world) := ⟨.refl n _, tame.refl _⟩
  cases found : store.func address with
  | error e =>
    simp only [invoke, found, final_error]
    exact unchanged
  | ok callee =>
    obtain ⟨type, code⟩ := callee
    by_cases count : args.length = type.args.length
    · cases code with
      | host handle =>
        rw [Structured.invoke_host found count]
        have changes := tame.call handle (Structured.castArgs args type) world
        cases called : env.call handle (Structured.castArgs args type) world <;>
        · rw [called] at changes
          exact ⟨.refl n _, changes⟩
      | wasm f owner =>
        rw [Structured.invoke_wasm found count, final_onState]
        exact (tame.allows n).runFunction tame.toKeeps rfl fuel f owner type _
          ⟨store, .empty, [], world⟩
    · simp only [invoke, found, ne_eq, count, not_false_eq_true, if_true, final_error]
      exact unchanged

end Environment.Tame

namespace Running

/-- What an instantiation does after the instance is set up: it writes the segments and runs the start
function. -/
def finish (env : Environment σ) (fuel : Nat) (m : Module) (owner : Nat) : Running σ Nat := do
  onLinking (Linking.writeSegments owner m)
  match m.start? with
  | none => return owner
  | some start =>
    let i ← onLinking do Linking.ofResult ((← get).instance? owner)
    let index ← onLinking (Linking.ofResult start.resolved)
    let address ← onLinking (Linking.ofResult (i.func index))
    let _ ← invoke env fuel address []
    return owner

/-- Instantiating is allocating, writing the segments, and running the start function. -/
theorem instantiate_eq (env : Environment σ) (fuel : Nat) (imports : ImportObject) (refuseI64 : Bool)
    (m : Module) : instantiate env fuel imports refuseI64 m =
      onLinking (Linking.allocate imports refuseI64 m) >>= finish env fuel m := rfl

variable {env : Environment σ} (tame : env.Tame W)
include tame

/-- The same of a call that is made for an instance. -/
theorem respects_invoke (n fuel address : Nat) (args : List Value) :
    Respects (ChangedWith W n) (Running.invoke env fuel address args) := by
  intro x
  have changes := tame.respects_invoke n fuel address args x
  unfold Running.invoke
  cases called : WasmEngine.invoke env fuel address args x <;>
  · rw [called] at changes
    exact changes

/-- A step of linking that is confined is confined as a part of a run. -/
theorem respects_onLinking {f : Linking α} (confined : Linking.Confined n f) :
    Respects (ChangedWith W n) (onLinking f : Running σ α) := by
  intro (store, world)
  have changes := confined store
  cases done : f store with
  | ok a store' =>
    rw [done] at changes
    rw [onLinking_ok done]
    exact ⟨changes, tame.refl _⟩
  | error e store' =>
    rw [done] at changes
    rw [onLinking_error done]
    exact ⟨changes, tame.refl _⟩

omit tame in
/-- Looking up leaves store and world as they are. -/
theorem final_inStore (f : Store → Except Fault α) (x : Store × σ) : final (inStore f x) = x := by
  cases found : f x.1 with
  | error e => rw [inStore_error found, final_error]
  | ok a => rw [inStore_ok found, final_ok]

/-- Looking into a store changes nothing. -/
theorem respects_inStore (n : Nat) (f : Store → Except Fault α) :
    Respects (ChangedWith W n) (inStore f : Running σ α) := by
  intro x
  rw [final_inStore]
  exact ⟨.refl n _, tame.refl _⟩

/-- Two parts of a run in a row respect what each does. -/
theorem respects_bind {β : Type} {f : Running σ α} {g : α → Running σ β} (first : Respects (ChangedWith W n) f)
    (rest : ∀ a, Respects (ChangedWith W n) (g a)) : Respects (ChangedWith W n) (f >>= g) :=
  Respects.bind tame.changedWith_trans first rest

theorem respects_pure (n : Nat) (a : α) : Respects (ChangedWith W n) (pure a : Running σ α) :=
  fun _ => ⟨.refl _ _, tame.refl _⟩

theorem respects_throw (n : Nat) (e : EngineError) : Respects (ChangedWith W n) (throw e : Running σ α) :=
  fun _ => ⟨.refl _ _, tame.refl _⟩

/-- Finding the function of an export changes nothing. -/
theorem respects_callable (n : Nat) (refuseI64 : Bool) (owner : Nat) (name : String) :
    Respects (ChangedWith W n) (callable refuseI64 owner name : Running σ Nat) := by
  refine respects_bind tame (respects_inStore tame n _) fun found => ?_
  split
  · split_ifs
    · refine respects_bind tame (respects_inStore tame n _) fun f => ?_
      split_ifs
      · exact respects_throw tame n _
      · exact respects_pure tame n _
    · exact respects_pure tame n _
  · exact respects_throw tame n _
  · exact respects_throw tame n _

/-- A call of an export sets up no instance: nothing that runs can. -/
theorem respects_callExport (n fuel : Nat) (refuseI64 : Bool) (owner : Nat) (name : String) (args : List Value) :
    Respects (ChangedWith W n) (callExport env fuel refuseI64 owner name args) :=
  respects_bind tame (respects_callable tame n refuseI64 owner name) fun address =>
    respects_invoke tame n fuel address args

/-- Writing to the memory of an export changes that memory alone. -/
theorem respects_writeExport (n owner : Nat) (name : String) (offset : Nat) (bytes : List UInt8) :
    Respects (ChangedWith W n) (writeExport owner name offset bytes : Running σ Unit) :=
  respects_bind tame (respects_inStore tame n _) fun address =>
    respects_onLinking tame (Linking.confined_writeMemory address offset bytes)

/-- What comes after the step that sets up the instance changes no instance. -/
theorem respects_finish (n fuel : Nat) (m : Module) (owner : Nat) :
    Respects (ChangedWith W n) (finish env fuel m owner) := by
  refine respects_bind tame (respects_onLinking tame (Linking.confined_writeSegments owner m)) fun _ => ?_
  split
  · exact respects_pure tame n owner
  · refine respects_bind tame (respects_onLinking tame (respects_look fun _ =>
      Linking.confined_ofResult _)) fun _ => ?_
    refine respects_bind tame (respects_onLinking tame (Linking.confined_ofResult _)) fun _ => ?_
    refine respects_bind tame (respects_onLinking tame (Linking.confined_ofResult _)) fun _ => ?_
    exact respects_bind tame (respects_invoke tame _ fuel _ []) fun _ => respects_pure tame n owner

/-- An instantiation sets up no instance that was there before it, also where it fails. -/
theorem changed_instantiate (fuel : Nat) (imports : ImportObject) (refuseI64 : Bool) (m : Module)
    (x : Store × σ) : ChangedWith W x.1.instances.size x
      (final (instantiate env fuel imports refuseI64 m x)) := by
  obtain ⟨store, world⟩ := x
  have allocated := Linking.changed_allocate imports refuseI64 m store
  rw [instantiate_eq]
  cases done : Linking.allocate imports refuseI64 m store with
  | ok owner store' =>
    rw [done] at allocated
    rw [bind_ok (onLinking_ok done)]
    exact tame.changedWith_trans (y := (store', world)) ⟨allocated, tame.refl _⟩
      (respects_finish tame _ fuel m owner _)
  | error e store' =>
    rw [done] at allocated
    rw [bind_error (onLinking_error done)]
    exact ⟨allocated, tame.refl _⟩

end Running

end

/-! ## What an embedding does with a store -/

namespace Store

/-- A use that an embedding makes of a store.  Each brings the functions of the embedding that it runs with, which
may be any functions that act on the world `σ`: what they can do to the store they can do by results and errors
only, as nothing else can use it while it runs. -/
inductive Use (σ : Type) where
  | instantiate (env : Environment σ) (fuel : Nat) (imports : ImportObject) (refuseI64 : Bool) (m : Module)
  | invoke (env : Environment σ) (fuel : Nat) (refuseI64 : Bool) (owner : Nat) (name : String)
      (args : List Value)
  | writeMemory (owner : Nat) (name : String) (offset : Nat) (bytes : List UInt8)
  /-- In between, the embedding goes on with its own world. -/
  | elsewhere (f : σ → σ)

section

variable {σ : Type}

/-- The store and the world after a use, whether that succeeds or fails. -/
def Use.after : Use σ → Store × σ → Store × σ
  | .instantiate env fuel imports refuseI64 m, x => final (Running.instantiate env fuel imports refuseI64 m x)
  | .invoke env fuel refuseI64 owner name args, x => final (Running.callExport env fuel refuseI64 owner name args x)
  | .writeMemory owner name offset bytes, x => final (Running.writeExport owner name offset bytes x)
  | .elsewhere f, (store, world) => (store, f world)

/-- The store and the world after a sequence of uses. -/
def afterUses (uses : List (Use σ)) (x : Store × σ) : Store × σ := uses.foldl (fun x use => use.after x) x

/-- A use changes the store by its operations, with none of its instances set up anew. -/
theorem changed_after (use : Use σ) (x : Store × σ) : x.1.Changed x.1.instances.size (use.after x).1 := by
  cases use with
  | instantiate env fuel imports refuseI64 m =>
    exact (Running.changed_instantiate env.tame_any fuel imports refuseI64 m x).1
  | invoke env fuel refuseI64 owner name args =>
    exact (Running.respects_callExport env.tame_any _ fuel refuseI64 owner name args x).1
  | writeMemory owner name offset bytes =>
    -- Writing asks nothing of the embedding, so that any environment will do.
    have idle : Environment σ := ⟨0, fun _ _ => pure [], fun _ _ w => w⟩
    exact (Running.respects_writeExport idle.tame_any _ owner name offset bytes x).1
  | elsewhere f => exact .refl _ _

/-- By induction on the uses.  The instances that a use adds count for those after it, and no fewer are kept. -/
theorem changed_afterUses (uses : List (Use σ)) (x : Store × σ) :
    x.1.Changed x.1.instances.size (afterUses uses x).1 := by
  induction uses generalizing x with
  | nil => exact .refl _ _
  | cons use uses ih =>
    obtain ⟨addresses, changes⟩ := changed_after use x
    have le := (Extends.of_changes changes (Nat.le_refl _)).le_instances (Nat.le_refl _)
    exact Changed.trans ⟨addresses, changes⟩ ((ih (use.after x)).mono le)

/-- Whatever an embedding does with a store, and whatever its own functions do meanwhile: the store is only changed
by its operations, which hand out the addresses that come next, and it extends the one that was there.  As the
store at the beginning is any, this holds between any two moments of a longer sequence of uses. -/
theorem extends_afterUses (uses : List (Use σ)) (x : Store × σ) :
    ∃ addresses, x.1.Changes x.1.instances.size addresses (afterUses uses x).1 ∧
      x.1.Extends x.1.instances.size addresses (afterUses uses x).1 ∧
      ((∀ a e, x.1.get? a = some e → e.HasType) → ∀ a e, (afterUses uses x).1.get? a = some e → e.HasType) := by
  obtain ⟨addresses, changes⟩ := changed_afterUses uses x
  have ext := Extends.of_changes changes (Nat.le_refl _)
  exact ⟨addresses, changes, ext, ext.hasType⟩

end

/-- A module with a variable that its function `f` sets to what a function of the embedding gives for 21. -/
def doubling : Module where
  id := none
  fields := [.moduleImport ⟨"env", "double", .func ⟨.ofString "double", .inline ⟨[⟨none, .i32⟩], [.i32]⟩⟩, none⟩,
    .global ⟨.i32, .var⟩ [.instr "const" (some .i32) [.number (.ofInt 1)] none] none,
    .func (.ofString "f") (.inline ⟨[], []⟩) []
      [.instr "const" (some .i32) [.number (.ofInt 21)] none, .call (.ofNat 0),
        .instr "set_global" none [.number (.ofInt 0)] none] none,
    .moduleExport ⟨"f", ⟨.func, .ofNat 1⟩⟩]
  metadata := none

/-- An embedding that doubles a number and counts how often it did. -/
def counting : Environment Nat where
  maxDepth := 10
  call := fun _ args count =>
    match args with
    | [.i32 n] => .ok [.i32 (n + n)] (count + 1)
    | _ => .error (.fault (.host "double takes one number")) count
  observe _ _ count := count

/-- What the embedding offers to the module. -/
def offersDouble : ImportObject := .add .empty "env" "double" (.func ⟨[.i32], [.i32]⟩ 0)

/-- The function of the embedding runs in the first call; the second one has a wrong number of arguments, and the
last an unknown name. -/
theorem extends_afterUses_doubling :
    let x := afterUses [.instantiate counting 10 offersDouble false doubling] (.empty, 0)
    let uses := [.invoke counting 10 false 0 "f" [], .elsewhere (· + 7), .invoke counting 10 true 0 "f" [.i32 5],
      .writeMemory 0 "m" 0 [1]]
    x.1.global 1 = .ok ⟨.i32, .var, .i32 1⟩ ∧ (afterUses uses x).1.global 1 = .ok ⟨.i32, .var, .i32 42⟩ ∧
      (afterUses uses x).2 = 8 ∧
      ∃ addresses, x.1.Changes x.1.instances.size addresses (afterUses uses x).1 ∧
        x.1.Extends x.1.instances.size addresses (afterUses uses x).1 ∧
        ((∀ a e, x.1.get? a = some e → e.HasType) → ∀ a e, (afterUses uses x).1.get? a = some e → e.HasType) :=
  ⟨by cbv, by cbv, by cbv, extends_afterUses _ _⟩

end Store

/-! ## Sessions -/

namespace Session

/-- A store that is not lent out was changed by its operations, with none of its instances set up anew, and one
that is lent out stays so. -/
structure Extends (s s' : Session) : Prop where
  stores : ∀ (i : Nat) (store : Store), s.stores[i]? = some (some store) →
    ∃ store' : Store, s'.stores[i]? = some (some store') ∧ store.Changed store.instances.size store'
  lent : ∀ i : Nat, s.stores[i]? = some none → s'.stores[i]? = some none

namespace Extends

variable {s s' s'' : Session}

/-- A session with the same stores extends. -/
theorem of_stores (same : s'.stores = s.stores) : s.Extends s' where
  stores i store here := ⟨store, by rw [same, here], .refl _ _⟩
  lent i here := by rw [same, here]

theorem refl (s : Session) : s.Extends s := of_stores rfl

theorem trans (first : s.Extends s') (second : s'.Extends s'') : s.Extends s'' where
  stores i store here := by
    obtain ⟨store', found, ⟨addresses, changes⟩⟩ := first.stores i store here
    obtain ⟨store'', after, changed⟩ := second.stores i store' found
    have le := (Store.Extends.of_changes changes (Nat.le_refl _)).le_instances (Nat.le_refl _)
    exact ⟨store'', after, Store.Changed.trans ⟨addresses, changes⟩ (changed.mono le)⟩
  lent i here := second.lent i (first.lent i here)

end Extends

theorem respects_ofResult {α : Type} (r : Except Fault α) : Respects Extends (ofResult r) := by
  cases r with
  | ok a => exact respects_pure .refl a
  | error e => exact respects_throw .refl _

/-- A store is taken back as the operation left it, and the others are as the operation left them. -/
theorem respects_lend {α : Type} {f : Running Session α} (i : Nat) (confined : ∀ store s,
      ChangedWith Extends store.instances.size (store, s) (final (f (store, s)))) :
    Respects Extends (lend i f) := by
  intro s
  unfold lend
  cases found : s.store i with
  | error e => exact .refl s
  | ok store =>
    have here : s.stores[i]? = some (some store) := by
      unfold Session.store at found
      split at found
      · next at_ =>
        cases found
        exact at_
      · cases found
    have known : i < s.stores.size := (Array.getElem?_eq_some_iff.1 here).1
    have changes := confined store { s with stores := s.stores.setIfInBounds i none }
    have back {store' : Store} {s' : Session} (changed : store.Changed store.instances.size store')
        (rest : Extends { s with stores := s.stores.setIfInBounds i none } s') :
        s.Extends { s' with stores := s'.stores.setIfInBounds i (some store') } := by
      have inside : i < s'.stores.size :=
        (Array.getElem?_eq_some_iff.1 (rest.lent i (by simp [known]))).1
      refine ⟨fun j other at_ => ?_, fun j lent => ?_⟩
      · by_cases same : j = i
        · subst same
          obtain rfl := Option.some.inj (Option.some.inj (here.symm.trans at_))
          exact ⟨store', by simp [inside], changed⟩
        · obtain ⟨other', after, changed⟩ := rest.stores j other (by simp [Ne.symm same, at_])
          exact ⟨other', by simp [Ne.symm same, after], changed⟩
      · have ne : j ≠ i := by
          rintro rfl
          rw [here] at lent
          cases lent
        have after := rest.lent j (by simp [ne.symm, lent])
        simp [ne.symm, after]
    cases done : f (store, { s with stores := s.stores.setIfInBounds i none }) with
    | ok a y =>
      rw [done] at changes
      simp only [done]
      exact back changes.1 changes.2
    | error e y =>
      rw [done] at changes
      simp only [done]
      exact back changes.1 changes.2

/-- What a function of the embedding does for a session extends it, if it extends the session outside. -/
theorem respects_asHost {α : Type} {f : SessionM α} (keeps : Respects Extends f) :
    Respects Extends (asHost f) := by
  intro s
  have here := keeps s
  unfold asHost
  cases done : f s with
  | ok a s' =>
    rw [done] at here
    exact here
  | error e s' =>
    rw [done] at here
    cases e <;> exact here

/-- Looking at a session from a function of the embedding extends it. -/
theorem observe_extends (depth : Nat) (name : String) (s : Session) : s.Extends (observe depth name s) := by
  unfold observe
  split
  · exact .of_stores rfl
  · exact .refl s

theorem respects_bind {ε α β : Type} {f : EStateM ε Session α} {g : α → EStateM ε Session β}
    (first : Respects Extends f) (rest : ∀ a, Respects Extends (g a)) : Respects Extends (f >>= g) :=
  Respects.bind Extends.trans first rest

/-- Finding the function of an export leaves a session as it is. -/
theorem respects_callable (i : Instance) (name : String) : Respects Extends (callable i name) := by
  refine respects_look fun s => respects_bind (respects_ofResult _) fun found => ?_
  split
  · split
    · refine respects_bind (respects_ofResult _) fun _ => respects_bind (respects_ofResult _) fun _ => ?_
      split
      · exact respects_throw .refl _
      · exact respects_pure .refl _
    · exact respects_pure .refl _
  · exact respects_throw .refl _
  · exact respects_throw .refl _

/-- By induction on how deep calls nest: a function of the session changes stores only by operations that it
runs, and these call functions of the session again. -/
theorem respects_hostCall (depth handle : Nat) (args : List Value) :
    Respects Extends (hostCall depth handle args) := by
  induction depth generalizing handle args with
  | zero => exact respects_throw .refl _
  | succ depth ih =>
    have tame (config : Config) :
        Environment.Tame ⟨config.maxDepth, hostCall depth, observe⟩ Extends :=
      ⟨⟨ih, observe_extends⟩, .refl, .trans⟩
    refine respects_get_bind fun s => ?_
    cases s.hosts[handle]? with
    | none => exact .refl s
    | some f =>
      refine respects_bind (fun _ => .of_stores rfl) (fun _ => ?_) s
      dsimp only
      split
      · exact respects_pure .refl _
      · exact respects_pure .refl _
      · exact respects_throw .refl _
      · exact respects_throw .refl _
      · refine respects_look fun t => ?_
        split
        · exact respects_pure .refl _
        · next i _ =>
          refine respects_asHost (respects_bind (respects_callable i _) fun address => ?_)
          refine respects_look fun t => respects_lend i.store fun store s => ?_
          exact Running.respects_invoke (tame i.config) _ _ address _ (store, s)
      · refine respects_look fun t => ?_
        split
        · exact respects_pure .refl _
        · exact fun _ => .of_stores rfl
      · refine respects_asHost (respects_look fun t => ?_)
        refine respects_bind (respects_lend shared fun store s => ?_) fun _ => respects_pure .refl _
        exact Running.changed_instantiate (tame t.config) t.fuel .empty t.config.refuseI64 _ (store, s)

/-! ## What a session does with its stores -/

/-- The functions of a session change stores only by operations that they run. -/
theorem tame_environment (s : Session) (config : Config) : (s.environment config).Tame Extends where
  call := respects_hostCall _
  observe := observe_extends
  refl := .refl
  trans := .trans

/-- The functions of a session that run on the way use its other stores only. -/
theorem respects_invoke (i : Instance) (name : String) (args : List Value) :
    Respects Extends (invoke i name args) := by
  refine respects_bind (respects_callable i name) fun address => respects_look fun t => ?_
  exact respects_lend i.store fun store s =>
    Running.respects_invoke (tame_environment t i.config) _ _ address args (store, s)

/-- Instantiating a module extends a session. -/
theorem respects_instantiate (place : Nat) (config : Config) (imports : ImportObject) (m : Module) :
    Respects Extends (instantiate place config imports m) := by
  refine respects_look fun t => respects_bind (respects_lend place fun store s => ?_)
    fun _ => respects_pure .refl _
  exact Running.changed_instantiate (tame_environment t config) t.fuel imports config.refuseI64 m (store, s)

/-- Writing to a memory extends a session. -/
theorem respects_writeMemory (i : Instance) (name : String) (offset : Nat) (bytes : List UInt8) :
    Respects Extends (writeMemory i name offset bytes) := by
  refine respects_look fun t => respects_bind (respects_ofResult _) fun address => ?_
  exact respects_lend i.store fun store s =>
    Running.respects_onLinking (tame_environment t i.config) (Linking.confined_writeMemory _ _ _) (store, s)

/-- What an embedding does with a session: it uses instances, or adds stores, functions and names. -/
inductive Action where
  | instantiate (place : Nat) (config : Config) (imports : ImportObject) (m : Module)
  | invoke (i : Instance) (name : String) (args : List Value)
  | writeMemory (i : Instance) (name : String) (offset : Nat) (bytes : List UInt8)
  | addStore
  | addHost (f : HostFunc)
  | register (name : String) (i : Instance)

/-- The session after an action, whether that succeeds or fails. -/
def Action.after : Action → Session → Session
  | .instantiate place config imports m, s => final (Session.instantiate place config imports m s)
  | .invoke i name args, s => final (Session.invoke i name args s)
  | .writeMemory i name offset bytes, s => final (Session.writeMemory i name offset bytes s)
  | .addStore, s => final (Session.addStore s)
  | .addHost f, s => final (Session.addHost f s)
  | .register name i, s => s.register name i

/-- Whatever is done next extends a session. -/
theorem extends_after (action : Action) (s : Session) : s.Extends (action.after s) := by
  cases action with
  | instantiate place config imports m => exact respects_instantiate place config imports m s
  | invoke i name args => exact respects_invoke i name args s
  | writeMemory i name offset bytes => exact respects_writeMemory i name offset bytes s
  | addStore =>
    -- The new store comes after all the others.
    have earlier {i : Nat} {entry : Option Store} (here : s.stores[i]? = some entry) :
        (s.stores.push (some .empty))[i]? = some entry := by
      obtain ⟨lt, -⟩ := Array.getElem?_eq_some_iff.1 here
      rw [Array.getElem?_push, if_neg (Nat.ne_of_lt lt), here]
    exact ⟨fun i store here => ⟨store, earlier here, .refl _ _⟩, fun i here => earlier here⟩
  | addHost f => exact .of_stores rfl
  | register name i => exact .of_stores rfl

/-- The session after a sequence of actions. -/
def afterAll (s : Session) (actions : List Action) : Session :=
  actions.foldl (fun s action => action.after s) s

theorem extends_afterAll (s : Session) (actions : List Action) : s.Extends (s.afterAll actions) := by
  induction actions generalizing s with
  | nil => exact .refl s
  | cons action actions ih => exact (extends_after action s).trans (ih _)

/-- Whatever an embedding does with a session, each of its stores is only changed by the operations of stores,
which hand out the addresses that come next; and the store that is left extends the one that was there. -/
theorem extends_stores (s : Session) (actions : List Action) {i : Nat} {store : Store}
    (here : s.stores[i]? = some (some store)) :
    ∃ addresses store', (s.afterAll actions).stores[i]? = some (some store') ∧
      store.Changes store.instances.size addresses store' ∧
      store.Extends store.instances.size addresses store' ∧
      ((∀ a e, store.get? a = some e → e.HasType) → ∀ a e, store'.get? a = some e → e.HasType) := by
  obtain ⟨store', found, addresses, changes⟩ := (extends_afterAll s actions).stores i store here
  have ext := Store.Extends.of_changes changes (Nat.le_refl _)
  exact ⟨addresses, store', found, changes, ext, ext.hasType⟩

end Session

end WasmEngine
