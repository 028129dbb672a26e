import WasmEngine.Proofs.Embedding.IndexSpaces
import WasmEngine.Proofs.Typing.IndexRanges

/-!
# What an instantiation checks

Validation looks neither at the offsets of segments nor at whether exports refer to something.  A module that has an
instance has plain instructions as offsets and exports of what it has (`instantiable_of_instantiate`).
-/

namespace WasmEngine

open Node Outcome

/-- The offsets of the segments are plain instructions, and exports refer to what the module has. -/
structure Module.Instantiable (m : Module) : Prop where
  elems : ∀ target offset funcs, .elem target offset funcs ∈ m.fields → ∀ node ∈ offset, node.IsPlain
  data : ∀ target offset init, .data target offset init ∈ m.fields → ∀ node ∈ offset, node.IsPlain
  exports : ∀ e n, .moduleExport e ∈ m.fields → e.descr.id.number? = some n → n < m.countOf e.descr.kind

/-- The definitions of a kind are as many as the fields that define one. -/
theorem length_definitionsOf (kind : ExportKind) (fields : List Node) :
    (definitionsOf kind fields).length = definedIn kind fields := by
  induction fields with
  | nil => rfl
  | cons field fields ih =>
    rw [definitionsOf_cons, List.length_append, ih, definedIn_cons]
    congr 1
    cases field with
    | moduleImport decl =>
      obtain ⟨module, name, descr, id⟩ := decl
      cases descr <;> cases kind <;> rfl
    | func | table | memory | global => cases kind <;> rfl
    | _ => rfl

namespace ConstantExpr

variable {s : Store} {i : ModuleInstance} {init : List Node}

/-- An expression that has a value is plain. -/
theorem plain_of_evaluateFrom {result v : Option Value} (evaluated : evaluateFrom s i result init = .ok v) :
    ∀ node ∈ init, node.IsPlain := by
  induction init generalizing result with
  | nil => nofun
  | cons node rest ih =>
    cases node with
    | instr id object args memArg =>
      refine List.forall_mem_cons.2 ⟨trivial, ?_⟩
      unfold evaluateFrom at evaluated
      split at evaluated
      · obtain ⟨_, -, evaluated⟩ := bind_eq_ok_iff.1 evaluated
        exact ih evaluated
      · obtain ⟨_, -, evaluated⟩ := bind_eq_ok_iff.1 evaluated
        obtain ⟨_, -, evaluated⟩ := bind_eq_ok_iff.1 evaluated
        exact ih evaluated
      · cases evaluated
      · exact ih evaluated
      · cases evaluated
    | _ => cases evaluated

/-- An offset that has a value is plain. -/
theorem plain_of_offset {n : Nat} (evaluated : offset s i init = .ok n) : ∀ node ∈ init, node.IsPlain := by
  unfold offset at evaluated
  split at evaluated
  · next value => exact plain_of_evaluateFrom value
  · cases evaluated
  · cases evaluated

end ConstantExpr

namespace Linking

variable {i i' : ModuleInstance} {s s' : Store} {fields : List Node}

/-- Element segments that were written have plain offsets. -/
theorem plain_of_writeElements {next : Nat} (written : writeElements i next fields s = .ok () s')
    {target : Index} {offset : List Node} {funcs : List Index} (inside : .elem target offset funcs ∈ fields) :
    ∀ node ∈ offset, node.IsPlain := by
  induction fields generalizing next s with
  | nil => cases inside
  | cons field fields ih =>
    cases field with
    | table t =>
      have later := (List.mem_cons.1 inside).resolve_left (by rintro ⟨⟩)
      rw [writeElements] at written
      split at written
      · obtain ⟨_, -, written⟩ := ofResult_bind_eq_ok_iff.1 written
        obtain ⟨_, _, -, written⟩ := run_bind_eq_ok_iff.1 written
        obtain ⟨_, _, -, written⟩ := run_bind_eq_ok_iff.1 written
        exact ih written later
      · exact ih written later
    | elem target' offset' funcs' =>
      rw [writeElements] at written
      obtain ⟨_, -, written⟩ := ofResult_bind_eq_ok_iff.1 written
      obtain ⟨_, t, -, written⟩ := run_bind_eq_ok_iff.1 written
      rw [get_bind_eq] at written
      obtain ⟨_, evaluated, written⟩ := ofResult_bind_eq_ok_iff.1 written
      obtain ⟨_, -, written⟩ := ofResult_bind_eq_ok_iff.1 written
      obtain ⟨_, _, -, written⟩ := run_bind_eq_ok_iff.1 written
      rcases List.mem_cons.1 inside with here | later
      · cases here
        exact ConstantExpr.plain_of_offset evaluated
      · exact ih written later
    | _ =>
      have later := (List.mem_cons.1 inside).resolve_left (by rintro ⟨⟩)
      exact ih written later

/-- Data segments that were written have plain offsets. -/
theorem plain_of_writeData (written : writeData i fields s = .ok () s') {target : Index} {offset : List Node}
    {init : List UInt8} (inside : .data target offset init ∈ fields) : ∀ node ∈ offset, node.IsPlain := by
  induction fields generalizing s with
  | nil => cases inside
  | cons field fields ih =>
    cases field with
    | data target' offset' init' =>
      rw [writeData] at written
      obtain ⟨_, -, written⟩ := ofResult_bind_eq_ok_iff.1 written
      obtain ⟨_, t, -, written⟩ := run_bind_eq_ok_iff.1 written
      rw [get_bind_eq] at written
      obtain ⟨_, evaluated, written⟩ := ofResult_bind_eq_ok_iff.1 written
      obtain ⟨_, _, -, written⟩ := run_bind_eq_ok_iff.1 written
      rcases List.mem_cons.1 inside with here | later
      · cases here
        exact ConstantExpr.plain_of_offset evaluated
      · exact ih written later
    | _ =>
      have later := (List.mem_cons.1 inside).resolve_left (by rintro ⟨⟩)
      exact ih written later

theorem memoryAt_eq_ok_iff {n a : Nat} : memoryAt i n s = .ok a s' ↔ i.mems[n]? = some a ∧ s = s' := by
  unfold memoryAt
  cases i.mems[n]? <;> simp

theorem tableAt_eq_ok_iff {n a : Nat} : tableAt i n s = .ok a s' ↔ i.tables[n]? = some a ∧ s = s' := by
  unfold tableAt
  cases i.tables[n]? <;> simp

/-- What is exported has an address. -/
theorem lt_of_resolveExport {refuseI64 : Bool} {e : ModuleExport} {v : Extern} {n : Nat}
    (resolved : resolveExport refuseI64 i e s = .ok v s') (number : e.descr.id.number? = some n) :
    n < (i.space e.descr.kind).length := by
  obtain ⟨name, kind, id⟩ := e
  obtain ⟨k, found, rest⟩ := ofResult_bind_eq_ok_iff.1 resolved
  obtain rfl : k = n := by
    cases id <;> cases number
    exact (Except.ok.inj found).symm
  suffices known : ∃ a, (i.space kind)[k]? = some a by
    obtain ⟨a, here⟩ := known
    exact (List.getElem?_eq_some_iff.1 here).1
  cases kind with
  | func =>
    obtain ⟨a, found, -⟩ := ofResult_bind_eq_ok_iff.1 rest
    unfold ModuleInstance.func at found
    split at found
    · next a here => exact ⟨a, here⟩
    · cases found
  | global =>
    obtain ⟨a, found, -⟩ := ofResult_bind_eq_ok_iff.1 rest
    unfold ModuleInstance.global at found
    split at found
    · next a here => exact ⟨a, here⟩
    · cases found
  | memory =>
    obtain ⟨a, _, found, -⟩ := run_bind_eq_ok_iff.1 rest
    exact ⟨a, (memoryAt_eq_ok_iff.1 found).1⟩
  | table =>
    obtain ⟨a, _, found, -⟩ := run_bind_eq_ok_iff.1 rest
    exact ⟨a, (tableAt_eq_ok_iff.1 found).1⟩

/-- Exports that were recorded are of what the instance has. -/
theorem lt_of_recordExports {refuseI64 : Bool} (recorded : recordExports refuseI64 i fields s = .ok i' s')
    {e : ModuleExport} (inside : .moduleExport e ∈ fields) {n : Nat} (number : e.descr.id.number? = some n) :
    n < (i.space e.descr.kind).length := by
  induction fields generalizing i s with
  | nil => cases inside
  | cons field fields ih =>
    cases field with
    | moduleExport first =>
      obtain ⟨v, t, resolved, rest⟩ := run_bind_eq_ok_iff.1 recorded
      obtain here | later := List.mem_cons.1 inside
      · cases here
        exact lt_of_resolveExport resolved number
      · have next := ih rest later
        cases kind : e.descr.kind <;> rw [kind] at next <;> exact next
    | _ =>
      have later := (List.mem_cons.1 inside).resolve_left (by rintro ⟨⟩)
      exact ih recorded later

/-- The exports of an instance are of what the module has. -/
theorem lt_of_allocate {imports : ImportObject} {refuseI64 : Bool} {m : Module} {owner : Nat}
    (signatures : ∀ field ∈ m.fields, field.HasSignature)
    (const : ∀ decl t, .moduleImport decl ∈ m.fields → decl.descr ≠ .global ⟨t, .var⟩)
    (allocated : allocate imports refuseI64 m s = .ok owner s') {e : ModuleExport}
    (inside : .moduleExport e ∈ m.fields) {n : Nat} (number : e.descr.id.number? = some n) :
    n < m.countOf e.descr.kind := by
  obtain ⟨_, t, -, allocated⟩ := run_bind_eq_ok_iff.1 allocated
  obtain ⟨i, u, fields, allocated⟩ := run_bind_eq_ok_iff.1 allocated
  obtain ⟨_, _, recorded, -⟩ := run_bind_eq_ok_iff.1 allocated
  have now := numbered_allocateFields (numbered_empty (.ofModule m) _ t) signatures const fields
  have known := lt_of_recordExports recorded inside number
  rwa [(now.space e.descr.kind).length_eq, List.nil_append, length_definitionsOf] at known

end Linking

namespace Running

variable {σ α β : Type}

/-- A step of linking, and what follows it with the store that it leaves. -/
theorem onLinking_bind_eq_ok_iff {f : Linking α} {g : α → Running σ β} {s : Store} {w : σ} {b : β}
    {y : Store × σ} : (onLinking f >>= g) (s, w) = .ok b y ↔ ∃ a t, f s = .ok a t ∧ g a (t, w) = .ok b y := by
  rw [run_bind_eq_ok_iff]
  constructor
  · rintro ⟨a, ⟨t, _⟩, first, rest⟩
    obtain ⟨done, rfl⟩ := onLinking_eq_ok_iff.1 first
    exact ⟨a, t, done, rest⟩
  · rintro ⟨a, t, done, rest⟩
    exact ⟨a, (t, w), onLinking_ok done, rest⟩

/-- A module that has an instance has plain offsets and exports what it has. -/
theorem instantiable_of_instantiate {env : Environment σ} {fuel : Nat} {imports : ImportObject} {refuseI64 : Bool}
    {m : Module} {x y : Store × σ} {owner : Nat} (signatures : ∀ field ∈ m.fields, field.HasSignature)
    (const : ∀ decl t, .moduleImport decl ∈ m.fields → decl.descr ≠ .global ⟨t, .var⟩)
    (done : instantiate env fuel imports refuseI64 m x = .ok owner y) : m.Instantiable := by
  obtain ⟨s, w⟩ := x
  obtain ⟨owner', s', allocated, finished⟩ := onLinking_bind_eq_ok_iff.1 done
  obtain ⟨_, _, written, -⟩ := onLinking_bind_eq_ok_iff.1 finished
  obtain ⟨i, here, written⟩ := Linking.ofResult_bind_eq_ok_iff.1 written
  obtain ⟨_, _, elements, data⟩ := run_bind_eq_ok_iff.1 written
  refine ⟨fun _ _ _ inside => Linking.plain_of_writeElements elements inside,
    fun _ _ _ inside => Linking.plain_of_writeData data inside, fun e n inside number => ?_⟩
  exact Linking.lt_of_allocate signatures const allocated inside number

end Running

end WasmEngine
