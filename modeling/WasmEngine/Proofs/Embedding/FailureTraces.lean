import WasmEngine.Proofs.Embedding.IndexSpaces
import WasmEngine.Proofs.Machine.Patches

/-!
# What a failed instantiation leaves

An instantiation that fails while the fields are allocated or the exports recorded leaves every entry and every
instance that was there.  One that fails while the segments are written leaves them with the segments before the
failing one, each as a whole, and with nothing of the others (`abandoned_of_instantiate`).
-/

namespace WasmEngine

open Outcome

/-- A segment of a module. -/
inductive Segment where
  /-- The elements with which the table at a position among the tables is defined. -/
  | defined (position : Nat) (funcs : List Index)
  | elem (target : Index) (offset : List Node) (funcs : List Index)
  | data (target : Index) (offset : List Node) (content : List UInt8)

/-- The segments for tables among fields; the next table that is defined has the position `next`. -/
def elementSegments : Nat → List Node → List Segment
  | _, [] => []
  | next, .table t :: fields =>
    if t.elements.isEmpty then elementSegments (next + 1) fields
    else .defined next t.elements :: elementSegments (next + 1) fields
  | next, .elem target offset funcs :: fields => .elem target offset funcs :: elementSegments next fields
  | next, _ :: fields => elementSegments next fields

/-- The segments for memories among fields. -/
def dataSegments : List Node → List Segment
  | [] => []
  | .data target offset content :: fields => .data target offset content :: dataSegments fields
  | _ :: fields => dataSegments fields

/-- The segments of a module in the order in which they are written. -/
def Module.segments (m : Module) : List Segment :=
  elementSegments (m.fields.countP Linking.isTableImport) m.fields ++ dataSegments m.fields

namespace Segment

/-- The patch that a segment is for an instance in a store, if its indices and its offset are in order. -/
def patch (i : ModuleInstance) (s : Store) : Segment → Except EngineError Patch
  | .defined position funcs => do
    let funcs ← (Linking.funcAddresses i funcs).mapError .fault
    match i.tables[position]? with
    | some address => return .slots address 0 funcs
    | none => throw (.compile (.unknownTable position))
  | .elem target offset funcs => do
    let position ← target.resolved.mapError .fault
    match i.tables[position]? with
    | some address =>
      let offset ← (ConstantExpr.offset s i offset).mapError .fault
      let funcs ← (Linking.funcAddresses i funcs).mapError .fault
      return .slots address offset funcs
    | none => throw (.compile (.unknownTable position))
  | .data target offset content => do
    let position ← target.resolved.mapError .fault
    match i.mems[position]? with
    | some address =>
      let offset ← (ConstantExpr.offset s i offset).mapError .fault
      return .bytes address offset content
    | none => throw (.compile (.unknownMemory position))

/-- Writes a segment. -/
def write (i : ModuleInstance) (segment : Segment) : Linking Unit := fun s =>
  match segment.patch i s with
  | .ok patch => Linking.onStore patch.write s
  | .error e => .error e s

/-- Why a segment is not written: an index or its offset is not in order, or its patch does not fit. -/
def Fails (i : ModuleInstance) (s : Store) (e : EngineError) (segment : Segment) : Prop :=
  segment.patch i s = .error e ∨
    ∃ patch fault, segment.patch i s = .ok patch ∧ patch.Misfits s fault ∧ e = .fault fault

end Segment

/-! ## Segments one after the other -/

namespace Linking

variable {i : ModuleInstance}

/-- The elements of a table are written as their segment is. -/
theorem write_defined (i : ModuleInstance) (position : Nat) (funcs : List Index) :
    (do
      let funcs ← ofResult (funcAddresses i funcs)
      let address ← tableAt i position
      onStore (Store.fillTable address 0 funcs)) = Segment.write i (.defined position funcs) := by
  funext s
  simp only [Segment.write, Segment.patch, tableAt]
  cases funcAddresses i funcs with
  | error e => rfl
  | ok funcs => cases i.tables[position]? <;> rfl

/-- Writing an element segment is finding its table and its offset and filling the table there. -/
theorem write_elem (i : ModuleInstance) (target : Index) (offset : List Node) (funcs : List Index) :
    (do
      let address ← tableAt i (← ofResult target.resolved)
      let offset ← ofResult (ConstantExpr.offset (← get) i offset)
      let funcs ← ofResult (funcAddresses i funcs)
      onStore (Store.fillTable address offset funcs)) = Segment.write i (.elem target offset funcs) := by
  funext s
  simp only [Segment.write, Segment.patch]
  cases target.resolved with
  | error e => rfl
  | ok position =>
    simp only [ofResult, tableAt, Except.mapError, bind, Except.bind, EStateM.bind, pure, EStateM.pure]
    cases i.tables[position]? with
    | none => rfl
    | some address =>
      simp only [EStateM.pure, Outcome.run_get]
      cases ConstantExpr.offset s i offset with
      | error e => rfl
      | ok offset => cases funcAddresses i funcs <;> rfl

/-- Writing a data segment is finding its memory and its offset and filling the memory there. -/
theorem write_data (i : ModuleInstance) (target : Index) (offset : List Node) (content : List UInt8) :
    (do
      let address ← memoryAt i (← ofResult target.resolved)
      let offset ← ofResult (ConstantExpr.offset (← get) i offset)
      onStore (Store.writeMemory address offset content)) = Segment.write i (.data target offset content) := by
  funext s
  simp only [Segment.write, Segment.patch]
  cases target.resolved with
  | error e => rfl
  | ok position =>
    simp only [ofResult, memoryAt, Except.mapError, bind, Except.bind, EStateM.bind, pure, EStateM.pure]
    cases i.mems[position]? with
    | none => rfl
    | some address =>
      simp only [EStateM.pure, Outcome.run_get]
      cases ConstantExpr.offset s i offset <;> rfl

/-- The elements are written segment by segment. -/
theorem writeElements_eq (i : ModuleInstance) (next : Nat) (fields : List Node) :
    writeElements i next fields = forM (elementSegments next fields) (Segment.write i) := by
  induction fields generalizing next with
  | nil => rfl
  | cons field fields ih =>
    cases field with
    | table t =>
      rw [writeElements, elementSegments]
      cases t.elements.isEmpty with
      | true => exact ih (next + 1)
      | false =>
        rw [if_neg Bool.false_ne_true, List.forM_cons, ← ih, ← write_defined]
        simp only [bind_assoc]
        rfl
    | elem target offset funcs =>
      rw [elementSegments, List.forM_cons, ← ih, ← write_elem, writeElements]
      simp only [bind_assoc]
    | _ => exact ih next

/-- The data is written segment by segment. -/
theorem writeData_eq_forM (i : ModuleInstance) (fields : List Node) :
    writeData i fields = forM (dataSegments fields) (Segment.write i) := by
  induction fields with
  | nil => rfl
  | cons field fields ih =>
    cases field with
    | data target offset content =>
      rw [dataSegments, List.forM_cons, ← ih, ← write_data, writeData]
      simp only [bind_assoc]
    | _ => exact ih

/-- The segments of an instance are written one after the other. -/
theorem writeSegments_eq {owner : Nat} {i : ModuleInstance} {m : Module} {s : Store}
    (known : s.instance? owner = .ok i) :
    writeSegments owner m s = forM m.segments (Segment.write i) s := by
  have first : (ofResult (s.instance? owner) : Linking ModuleInstance) s = .ok i s := by rw [known]; rfl
  rw [Module.segments, List.forM_append, ← writeElements_eq, ← writeData_eq_forM]
  exact bind_ok first

end Linking

/-! ## What segments come to -/

namespace ConstantExpr

variable {s t : Store} (same : ∀ a, t.global a = s.global a)
include same

/-- A constant expression sees no more of a store than its globals. -/
theorem evaluateFrom_congr (i : ModuleInstance) (result : Option Value) (init : List Node) :
    evaluateFrom t i result init = evaluateFrom s i result init := by
  induction init generalizing result with
  | nil => rfl
  | cons node rest ih =>
    cases node with
    | instr id object args memArg =>
      unfold evaluateFrom
      split <;> simp only [ih, same]
    | _ => rfl

/-- Offsets do not depend on what segments write. -/
theorem offset_congr (i : ModuleInstance) (init : List Node) : offset t i init = offset s i init := by
  rw [offset, offset, evaluate, evaluate, evaluateFrom_congr same]

end ConstantExpr

namespace Segment

variable {i : ModuleInstance} {s s' t : Store} {e : EngineError} {segments : List Segment}

/-- A segment is the same patch whatever was written to tables and memories. -/
theorem patch_of_rewritten (rewritten : s.Rewritten t) (segment : Segment) :
    segment.patch i t = segment.patch i s := by
  cases segment with
  | defined position funcs => rfl
  | elem target offset funcs | data target offset content =>
    simp only [patch, ConstantExpr.offset_congr rewritten.global]

/-- A segment is written as a whole, or nothing of it is. -/
theorem write_cases (segment : Segment) (i : ModuleInstance) (s : Store) :
    (∃ patch s', segment.write i s = .ok () s' ∧ segment.patch i s = .ok patch ∧ patch.Applied s s') ∨
      ∃ e, segment.write i s = .error e s ∧ segment.Fails i s e := by
  unfold write
  cases found : segment.patch i s with
  | error e => exact .inr ⟨e, rfl, .inl found⟩
  | ok patch =>
    obtain ⟨s', written, applied⟩ | ⟨fault, refused, misfits⟩ := patch.write_cases s
    · refine .inl ⟨patch, s', ?_, rfl, applied⟩
      simp only [Linking.onStore, written]
    · refine .inr ⟨.fault fault, ?_, .inr ⟨patch, fault, found, misfits, rfl⟩⟩
      simp only [Linking.onStore, refused]

/-- Segments that are written are patches that are applied in their order. -/
theorem patched_of_forM (written : forM segments (Segment.write i) s = .ok () s') :
    ∃ patches, List.Forall₂ (fun segment patch => segment.patch i s = .ok patch) segments patches ∧
      Store.Patched patches s s' := by
  induction segments generalizing s with
  | nil =>
    cases written
    exact ⟨[], .nil, .nil _⟩
  | cons segment segments ih =>
    rw [List.forM_cons] at written
    obtain ⟨_, t, first, rest⟩ := run_bind_eq_ok_iff.1 written
    obtain ⟨patch, t', first', found, applied⟩ | ⟨e, refused, -⟩ := segment.write_cases i s
    · cases first'.symm.trans first
      obtain ⟨patches, found', patched⟩ := ih rest
      refine ⟨patch :: patches, .cons found ?_, .cons applied patched⟩
      refine found'.imp fun segment patch same => ?_
      rwa [patch_of_rewritten (.of_applied applied)] at same
    · cases refused.symm.trans first

/-- Where a segment fails, those before it are applied and nothing else is. -/
theorem patched_of_forM_error (failed : forM segments (Segment.write i) s = .error e s') :
    ∃ done failing later patches, segments = done ++ failing :: later ∧
      List.Forall₂ (fun segment patch => segment.patch i s = .ok patch) done patches ∧
      Store.Patched patches s s' ∧ failing.Fails i s' e := by
  obtain ⟨done, failing, later, t, split, before, fails⟩ := exists_of_forM_error failed
  obtain ⟨patches, found, patched⟩ := patched_of_forM before
  obtain ⟨patch, t', written, -⟩ | ⟨e', refused, reason⟩ := failing.write_cases i t
  · cases written.symm.trans fails
  · cases refused.symm.trans fails
    exact ⟨done, failing, later, patches, split, found, patched, reason⟩

end Segment

/-! ## Allocation -/

/-- A store has every entry of another one, and the same instances. -/
structure Store.Retains (s s' : Store) : Prop where
  entries : ∀ a, a < s.size → s'.get? a = s.get? a
  size : s.size ≤ s'.size
  instances : s'.instances = s.instances

namespace Linking

/-- Allocation keeps the entries that there are. -/
theorem adds_retains : Adds Store.Retains where
  refl _ := ⟨fun _ _ => rfl, Nat.le_refl _, rfl⟩
  trans first second := ⟨fun a known => (second.entries a (Nat.lt_of_lt_of_le known first.size)).trans
    (first.entries a known), Nat.le_trans first.size second.size, second.instances.trans first.instances⟩
  alloc s entry _ := by
    refine ⟨fun a known => ?_, ?_, rfl⟩
    · rw [Store.get?_alloc, if_neg (Nat.ne_of_lt known)]
    · rw [Store.size_alloc]
      exact Nat.le_succ _

/-- An allocation leaves what was there, and adds one instance: the one that it sets up, or, where it fails, one
that has nothing. -/
theorem allocate_cases (imports : ImportObject) (refuseI64 : Bool) (m : Module) (s : Store) :
    (∃ i s', allocate imports refuseI64 m s = .ok s.instances.size s' ∧
      Store.Retains { s with instances := s.instances.push i } s') ∨
    ∃ e s', allocate imports refuseI64 m s = .error e s' ∧
      Store.Retains { s with instances := s.instances.push .empty } s' := by
  let added : Store := { s with instances := s.instances.push .empty }
  let setUp : Linking ModuleInstance := do
    let i ← allocateFields imports (.ofModule m) s.instances.size .empty m.fields
    recordExports refuseI64 i m.fields
  have retains : Respects Store.Retains setUp :=
    adds_retains.bind (adds_retains.allocateFields _ _ _ _ _) fun _ => adds_retains.recordExports _ _ _
  have allocates : allocate imports refuseI64 m s = (setUp >>= fun i => do
      modify fun store => store.setInstance s.instances.size i
      return s.instances.size) added := by
    simp only [setUp, bind_assoc]
    rfl
  have left := retains added
  rw [allocates]
  cases done : setUp added with
  | error e t =>
    rw [done] at left
    exact .inr ⟨e, t, bind_error done, left⟩
  | ok i t =>
    rw [done] at left
    refine .inl ⟨i, t.setInstance s.instances.size i, bind_ok done, left.entries, left.size, ?_⟩
    have instances : t.instances = s.instances.push .empty := left.instances
    rw [Store.setInstance, instances]
    simp [Array.setIfInBounds, Array.set_push]

end Linking

/-! ## Instantiation -/

namespace Running

variable {σ : Type}

/-- How far an instantiation came that failed with an error, in a store `s` and a world `w`, and what it left of
these. -/
inductive Abandoned (imports : ImportObject) (refuseI64 : Bool) (m : Module) (s : Store) (w : σ) (e : EngineError)
    (s' : Store) (w' : σ) : Prop
  /-- A field was not allocated or an export not recorded. -/
  | allocating (failed : Linking.allocate imports refuseI64 m s = .error e s') (world : w' = w)
      (entries : ∀ a, a < s.size → s'.get? a = s.get? a)
      (instances : ∀ n, n < s.instances.size → s'.instances[n]? = s.instances[n]?)
  /-- A segment was not written.  Tables and memories are as the segments before it leave them. -/
  | writing {s₁ : Store} {owner : Nat} {i : ModuleInstance} {done later : List Segment} {failing : Segment}
      {patches : List Patch} (allocated : Linking.allocate imports refuseI64 m s = .ok owner s₁)
      (known : s₁.instance? owner = .ok i) (before : ∀ a, a < s.size → s₁.get? a = s.get? a)
      (segments : m.segments = done ++ failing :: later)
      (resolved : List.Forall₂ (fun segment patch => segment.patch i s₁ = .ok patch) done patches)
      (patched : Store.Patched patches s₁ s') (fails : failing.Fails i s' e) (world : w' = w)
      (others : ∀ a, a < s.size → (∀ t, s.get? a ≠ some (.table t)) → (∀ mem, s.get? a ≠ some (.memory mem)) →
        s'.get? a = s.get? a)
      (instances : ∀ n, n < s.instances.size → s'.instances[n]? = s.instances[n]?)
  /-- All segments were written.  Only a start function is left to fail. -/
  | starting {s₁ s₂ : Store} {owner : Nat} {i : ModuleInstance} {patches : List Patch}
      (allocated : Linking.allocate imports refuseI64 m s = .ok owner s₁) (known : s₁.instance? owner = .ok i)
      (resolved : List.Forall₂ (fun segment patch => segment.patch i s₁ = .ok patch) m.segments patches)
      (patched : Store.Patched patches s₁ s₂) (start : m.start? ≠ none)

/-- An instantiation that fails leaves what was there, but for the segments that it wrote before. -/
theorem abandoned_of_instantiate {env : Environment σ} {fuel : Nat} {imports : ImportObject} {refuseI64 : Bool}
    {m : Module} {s s' : Store} {w w' : σ} {e : EngineError}
    (failed : instantiate env fuel imports refuseI64 m (s, w) = .error e (s', w')) :
    Abandoned imports refuseI64 m s w e s' w' := by
  have earlier (i : ModuleInstance) (n : Nat) (old : n < s.instances.size) :
      (s.instances.push i)[n]? = s.instances[n]? := by
    rw [Array.getElem?_push, if_neg (Nat.ne_of_lt old)]
  rw [instantiate_eq] at failed
  obtain ⟨i, s₁, allocated, retains⟩ | ⟨e', t, unallocated, retains⟩ :=
    Linking.allocate_cases imports refuseI64 m s
  · have instances : s₁.instances = s.instances.push i := retains.instances
    have known : s₁.instance? s.instances.size = .ok i := by
      rw [Store.instance?, instances, Array.getElem?_push_size]
    rw [bind_ok (onLinking_ok allocated), finish] at failed
    cases written : Linking.writeSegments s.instances.size m s₁ with
    | error e' t =>
      rw [bind_error (onLinking_error written)] at failed
      cases failed
      rw [Linking.writeSegments_eq known] at written
      obtain ⟨done, failing, later, patches, segments, resolved, patched, fails⟩ :=
        Segment.patched_of_forM_error written
      have rewritten := Store.Rewritten.of_patched patched
      refine .writing allocated known retains.entries segments resolved patched fails rfl ?_ ?_
      · intro a old noTable noMemory
        have same := retains.entries a old
        obtain kept | ⟨_, _, here, -⟩ | ⟨_, _, here, -⟩ := rewritten.entries a
        · exact kept.trans same
        · exact absurd (same.symm.trans here) (noTable _)
        · exact absurd (same.symm.trans here) (noMemory _)
      · intro n old
        rw [rewritten.instances, instances, earlier i n old]
    | ok _ s₂ =>
      rw [bind_ok (onLinking_ok written)] at failed
      rw [Linking.writeSegments_eq known] at written
      obtain ⟨patches, resolved, patched⟩ := Segment.patched_of_forM written
      refine .starting allocated known resolved patched fun none => ?_
      rw [none] at failed
      cases failed
  · rw [bind_error (onLinking_error unallocated)] at failed
    cases failed
    refine .allocating unallocated rfl retains.entries fun n old => ?_
    have instances : s'.instances = s.instances.push .empty := retains.instances
    rw [instances, earlier _ n old]

/-- A module that fills a slot of an imported table, then one that the table does not have, then the first. -/
def overfull : Module where
  id := none
  fields := [.moduleImport ⟨"m", "t", .table ⟨"anyfunc", ⟨2, none⟩, none, []⟩, none⟩,
    .func (.ofString "f") (.inline ⟨[], []⟩) [] [] none,
    .elem (.ofNat 0) [.instr "const" (some .i32) [.number (.ofInt 1)] none] [.ofNat 0],
    .elem (.ofNat 0) [.instr "const" (some .i32) [.number (.ofInt 2)] none] [.ofNat 0],
    .elem (.ofNat 0) [.instr "const" (some .i32) [.number (.ofInt 0)] none] [.ofNat 0]]
  metadata := none

/-- A store with a table of two empty slots. -/
def twoSlots : Store := ⟨#[some (.table ⟨[none, none], ⟨2, none⟩⟩)], #[]⟩

/-- The slot of the first segment is filled, and that of the last one is not. -/
theorem abandoned_of_instantiate_overfull : ∃ s',
    instantiate idle 10 (ImportObject.empty.add "m" "t" (.existing ⟨.table, 0⟩)) false overfull (twoSlots, ()) =
      .error (.fault (.size .elementsDoNotFit)) (s', ()) ∧
    s'.table 0 = .ok ⟨[none, some 1], ⟨2, none⟩⟩ ∧
    Abandoned (ImportObject.empty.add "m" "t" (.existing ⟨.table, 0⟩)) false overfull twoSlots ()
      (.fault (.size .elementsDoNotFit)) s' () := by
  have failed : ∃ s', instantiate idle 10 (ImportObject.empty.add "m" "t" (.existing ⟨.table, 0⟩)) false overfull
      (twoSlots, ()) = .error (.fault (.size .elementsDoNotFit)) (s', ()) ∧
      s'.table 0 = .ok ⟨[none, some 1], ⟨2, none⟩⟩ := ⟨_, rfl, rfl⟩
  obtain ⟨s', failed, filled⟩ := failed
  exact ⟨s', failed, filled, abandoned_of_instantiate failed⟩

end Running

end WasmEngine
