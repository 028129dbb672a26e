import WasmEngine.Proofs.Embedding.Instantiable
import WasmEngine.Proofs.Embedding.RenamedAllocation
import WasmEngine.Proofs.Embedding.TypeSafety
import WasmEngine.Proofs.Machine.RenamedRuns

/-!
# Instances of modules that say the same

The steps of an instantiation after the allocation, done for modules that say the same at addresses that stand for
each other, end alike.  So a module has an instance of the same as one that it restates
(`instantiate_of_restates`).
-/

namespace WasmEngine

open Node Outcome Binary Binary.Encode

namespace Linking

variable {α β γ δ : Type} {ρ : Renaming} {i j : ModuleInstance}

/-- Steps of instantiations that go along with each other. -/
abbrev Follows (ρ : Renaming) (V : α → β → Prop) (f : Linking α) (g : Linking β) : Prop :=
  Mirrors (Store.Renamed ρ) V f g

theorem follows_ofResult {V : α → β → Prop} {r : Except Fault α} {r' : Except Fault β} (found : Found V r r') :
    Follows ρ V (ofResult r) (ofResult r') := by
  cases found with
  | ok value => exact mirrors_pure value
  | error e => exact mirrors_throw _

theorem follows_onStore {V : α → β → Prop} {f : StoreM α} {f' : StoreM β}
    (same : Mirrors (Store.Renamed ρ) V f f') : Follows ρ V (onStore f) (onStore f') := by
  intro s t stores
  have ends := same s t stores
  simp only [onStore]
  generalize f s = r at ends
  generalize f' t = r' at ends
  cases ends with
  | ok value state => exact .ok value state
  | error state => exact .error state

/-- Two steps in a row that follow two others with equal results. -/
theorem Follows.then {W : γ → δ → Prop} {f : Linking α} {f' : Linking α} {g : α → Linking γ} {g' : α → Linking δ}
    (first : Follows ρ Eq f f') (rest : ∀ a, Follows ρ W (g a) (g' a)) : Follows ρ W (f >>= g) (f' >>= g') :=
  first.bind fun a _ same => same ▸ rest a

/-! ## Exports -/

section

variable (instances : i.Renamed ρ j)
include instances

theorem follows_memoryAt (n : Nat) : Follows ρ (ρ .memory) (memoryAt i n) (memoryAt j n) := by
  have at_ : Option.Rel (ρ .memory) i.mems[n]? j.mems[n]? := rel_getElem? (instances.space .memory) n
  unfold memoryAt
  generalize i.mems[n]? = a at at_
  generalize j.mems[n]? = b at at_
  cases at_ with
  | none => exact mirrors_throw _
  | some related => exact mirrors_pure related

theorem follows_tableAt (n : Nat) : Follows ρ (ρ .table) (tableAt i n) (tableAt j n) := by
  have at_ : Option.Rel (ρ .table) i.tables[n]? j.tables[n]? := rel_getElem? (instances.space .table) n
  unfold tableAt
  generalize i.tables[n]? = a at at_
  generalize j.tables[n]? = b at at_
  cases at_ with
  | none => exact mirrors_throw _
  | some related => exact mirrors_pure related

/-- An export that is spelled by the decoder refers to what stands for what the other one refers to. -/
theorem follows_resolveExport (refuseI64 : Bool) (e : ModuleExport) :
    Follows ρ (fun v v' => v'.kind = v.kind ∧ ρ v.kind v.address v'.address) (resolveExport refuseI64 i e)
      (resolveExport refuseI64 j (respelledExport e)) := by
  obtain ⟨name, kind, id⟩ := e
  unfold resolveExport respelledExport
  dsimp only
  rw [Index.resolved_respelled]
  refine (follows_ofResult (found_rfl _)).then fun n => ?_
  cases kind with
  | func => exact (follows_ofResult (instances.func n)).bind fun a b related => mirrors_pure ⟨rfl, related⟩
  | global =>
    refine (follows_ofResult (instances.global n)).bind fun a b related => ?_
    split_ifs
    · refine mirrors_look fun s t stores => ?_
      obtain ⟨g, here, there⟩ := stores.global related
      rw [here, there]
      refine (follows_ofResult (found_rfl (.ok g))).then fun g => ?_
      split_ifs
      · exact mirrors_throw _
      · exact mirrors_pure ⟨rfl, related⟩
    · exact mirrors_pure ⟨rfl, related⟩
  | memory => exact (follows_memoryAt instances n).bind fun a b related => mirrors_pure ⟨rfl, related⟩
  | table => exact (follows_tableAt instances n).bind fun a b related => mirrors_pure ⟨rfl, related⟩

end

/-- Records an export. -/
def recordExport (refuseI64 : Bool) (i : ModuleInstance) (e : ModuleExport) : Linking ModuleInstance := do
  let value ← resolveExport refuseI64 i e
  return { i with exports := i.exports ++ [⟨e.name, value⟩] }

/-- The exports among the fields are recorded one after the other. -/
theorem recordExports_eq (refuseI64 : Bool) (id : Option String) (metadata : Option ModuleMetadata)
    (i : ModuleInstance) (fields : List Node) : recordExports refuseI64 i fields =
      (Fields.ofModule ⟨id, fields, metadata⟩).exports.foldlM (recordExport refuseI64) i := by
  induction fields generalizing i with
  | nil => rfl
  | cons field fields ih =>
    cases field with
    | moduleExport e =>
      show _ = List.foldlM _ i (e :: (Fields.ofModule ⟨id, fields, metadata⟩).exports)
      rw [List.foldlM_cons, recordExport, bind_assoc, recordExports]
      exact congrArg _ (funext fun value => (ih _).trans (pure_bind _ _).symm)
    | _ => exact ih i

theorem follows_recordExports (refuseI64 : Bool) (instances : i.Renamed ρ j) {m m' : Module}
    (exports : (Fields.ofModule m').exports = (Fields.ofModule m).exports.map respelledExport) :
    Follows ρ (ModuleInstance.Renamed ρ) (recordExports refuseI64 i m.fields)
      (recordExports refuseI64 j m'.fields) := by
  rw [recordExports_eq refuseI64 m.id m.metadata, recordExports_eq refuseI64 m'.id m'.metadata]
  change (Fields.ofModule ⟨m'.id, m'.fields, m'.metadata⟩).exports = _ at exports
  rw [exports]
  generalize (Fields.ofModule m).exports = es
  induction es generalizing i j with
  | nil => exact mirrors_pure instances
  | cons e es ih =>
    rw [List.map_cons, List.foldlM_cons, List.foldlM_cons]
    refine ((follows_resolveExport instances refuseI64 e).bind fun v v' same => ?_).bind fun _ _ => ih
    refine mirrors_pure ⟨instances.space, List.rel_append instances.exports (.cons ?_ .nil)⟩
    exact ⟨rfl, same.1, same.2⟩

/-! ## Segments -/

/-- Writes an element segment. -/
def fill (i : ModuleInstance) (e : Index × List Node × List Index) : Linking Unit := do
  let address ← tableAt i (← ofResult e.1.resolved)
  let offset ← ofResult (ConstantExpr.offset (← get) i e.2.1)
  let funcs ← ofResult (funcAddresses i e.2.2)
  onStore (Store.fillTable address offset funcs)

/-- Writes a data segment. -/
def fillMemory (i : ModuleInstance) (d : Index × List Node × List UInt8) : Linking Unit := do
  let address ← memoryAt i (← ofResult d.1.resolved)
  let offset ← ofResult (ConstantExpr.offset (← get) i d.2.1)
  onStore (Store.writeMemory address offset d.2.2)

section

variable (instances : i.Renamed ρ j)
include instances

/-- The addresses of functions that are found on both sides correspond. -/
theorem found_funcAddresses (indices : List Index) : Found (List.Forall₂ (ρ .func)) (funcAddresses i indices)
    (funcAddresses j (indices.map Index.respelled)) := by
  unfold funcAddresses
  induction indices with
  | nil => exact .ok .nil
  | cons index indices ih =>
    rw [List.map_cons, List.mapM_cons, List.mapM_cons, Index.resolved_respelled]
    refine ((found_rfl _).bind fun n m same => ?_).bind fun a b related =>
      ih.bind fun as bs rest => .ok (.cons related rest)
    exact same ▸ instances.func n

theorem follows_offset {α β : Type} {V : α → β → Prop} {init init' : List Node} (alike : AlikeIn init init')
    {f : Nat → Linking α} {f' : Nat → Linking β} (rest : ∀ n, Follows ρ V (f n) (f' n)) :
    Follows ρ V (do let n ← ofResult (ConstantExpr.offset (← get) i init); f n)
      (do let n ← ofResult (ConstantExpr.offset (← get) j init'); f' n) := by
  refine mirrors_look fun s t stores => ?_
  obtain ⟨values, knows, knows'⟩ := exists_knows stores instances
  rw [ConstantExpr.offset_alike knows knows' alike]
  exact (follows_ofResult (found_rfl _)).then rest

theorem follows_fill {e e' : Index × List Node × List Index} (alike : ElemAlike e e') :
    Follows ρ Eq (fill i e) (fill j e') := by
  unfold fill
  rw [alike.target, alike.funcs, Index.resolved_respelled]
  refine (follows_ofResult (found_rfl _)).then fun n => (follows_tableAt instances n).bind fun a b related => ?_
  refine follows_offset instances alike.offset fun offset => ?_
  refine (follows_ofResult (found_funcAddresses instances e.2.2)).bind fun as bs funcs => ?_
  exact follows_onStore (Store.mirrors_fillTable related offset funcs)

theorem follows_fillMemory {d d' : Index × List Node × List UInt8} (alike : DataAlike d d') :
    Follows ρ Eq (fillMemory i d) (fillMemory j d') := by
  unfold fillMemory
  rw [alike.target, alike.init, Index.resolved_respelled]
  refine (follows_ofResult (found_rfl _)).then fun n => (follows_memoryAt instances n).bind fun a b related => ?_
  refine follows_offset instances alike.offset fun offset => ?_
  exact follows_onStore (Store.mirrors_writeMemory related offset d.2.2)

end

/-- The data segments among the fields are written one after the other. -/
theorem writeData_eq (id : Option String) (metadata : Option ModuleMetadata) (i : ModuleInstance)
    (fields : List Node) :
    writeData i fields = forM (Fields.ofModule ⟨id, fields, metadata⟩).data (fillMemory i) := by
  induction fields with
  | nil => rfl
  | cons field fields ih =>
    cases field with
    | data target offset init =>
      show writeData i (.data target offset init :: fields) = fillMemory i (target, offset, init) >>= fun _ =>
        forM (Fields.ofModule ⟨id, fields, metadata⟩).data (fillMemory i)
      rw [← ih, writeData, fillMemory]
      simp only [bind_assoc]
    | _ => exact ih

/-! ### Elements -/

/-- The element segments among fields in the order of the fields, where the next table that is defined has a given
index. -/
def segmentsFrom : Nat → List Node → List (Index × List Node × List Index)
  | _, [] => []
  | next, .table t :: fields => (inlineSegment next t).toList ++ segmentsFrom (next + 1) fields
  | next, .elem target offset funcs :: fields => (target, offset, funcs) :: segmentsFrom next fields
  | next, _ :: fields => segmentsFrom next fields

/-- Elements inside of a table are written as the segment of these. -/
theorem fill_inlineSegment_eq_ok_iff {n : Nat} (fits : n < UInt32.size) {funcs : List Index} {s s' : Store} :
    fill i (.ofNat n, zeroOffset, funcs) s = .ok () s' ↔ ∃ as a, funcAddresses i funcs = .ok as ∧
      i.tables[n]? = some a ∧ onStore (Store.fillTable a 0 as) s = .ok () s' := by
  have index : (Index.ofNat n).resolved = .ok n := congrArg Except.ok (Decode.toU32_ofInt fits)
  rw [fill, index, ofResult_bind_eq_ok_iff]
  constructor
  · rintro ⟨_, ⟨⟩, filled⟩
    obtain ⟨a, _, at_, filled⟩ := run_bind_eq_ok_iff.1 filled
    obtain ⟨here, rfl⟩ := tableAt_eq_ok_iff.1 at_
    rw [get_bind_eq, ofResult_bind_eq_ok_iff] at filled
    obtain ⟨_, ⟨⟩, filled⟩ := filled
    obtain ⟨as, found, filled⟩ := ofResult_bind_eq_ok_iff.1 filled
    exact ⟨as, a, found, here, filled⟩
  · rintro ⟨as, a, found, here, filled⟩
    refine ⟨n, rfl, run_bind_eq_ok_iff.2 ⟨a, s, tableAt_eq_ok_iff.2 ⟨here, rfl⟩, ?_⟩⟩
    rw [get_bind_eq, ofResult_bind_eq_ok_iff]
    exact ⟨0, rfl, ofResult_bind_eq_ok_iff.2 ⟨as, found, filled⟩⟩

/-- The elements among the fields are written segment by segment. -/
theorem writeElements_eq_ok_iff (id : Option String) (metadata : Option ModuleMetadata) {next : Nat}
    {fields : List Node} (few : next + (Fields.ofModule ⟨id, fields, metadata⟩).tables.length ≤ UInt32.size)
    {s s' : Store} : writeElements i next fields s = .ok () s' ↔
      forM (segmentsFrom next fields) (fill i) s = .ok () s' := by
  induction fields generalizing next s with
  | nil => exact Iff.rfl
  | cons field fields ih =>
    cases field with
    | table t =>
      have fewer : next + 1 + (Fields.ofModule ⟨id, fields, metadata⟩).tables.length ≤ UInt32.size := by
        have count : (Fields.ofModule ⟨id, .table t :: fields, metadata⟩).tables.length =
          (Fields.ofModule ⟨id, fields, metadata⟩).tables.length + 1 := rfl
        omega
      rw [writeElements, segmentsFrom, inlineSegment]
      cases filled : t.elements.isEmpty with
      | true => exact ih fewer
      | false =>
        simp only [Bool.not_false, if_true, Bool.false_eq_true, if_false, Option.toList_some,
          List.singleton_append, List.forM_cons]
        rw [ofResult_bind_eq_ok_iff, run_bind_eq_ok_iff]
        simp only [fill_inlineSegment_eq_ok_iff (i := i) (show next < UInt32.size by omega)]
        constructor
        · rintro ⟨as, found, filled⟩
          obtain ⟨a, _, at_, filled⟩ := run_bind_eq_ok_iff.1 filled
          obtain ⟨here, rfl⟩ := tableAt_eq_ok_iff.1 at_
          obtain ⟨_, t, filled, rest⟩ := run_bind_eq_ok_iff.1 filled
          exact ⟨(), t, ⟨as, a, found, here, filled⟩, (ih fewer).1 rest⟩
        · rintro ⟨_, t, ⟨as, a, found, here, filled⟩, rest⟩
          refine ⟨as, found, run_bind_eq_ok_iff.2 ⟨a, s, tableAt_eq_ok_iff.2 ⟨here, rfl⟩, ?_⟩⟩
          exact run_bind_eq_ok_iff.2 ⟨(), t, filled, (ih fewer).2 rest⟩
    | elem target offset funcs =>
      have first : writeElements i next (.elem target offset funcs :: fields) =
          fill i (target, offset, funcs) >>= fun _ => writeElements i next fields := by
        rw [writeElements, fill]
        simp only [bind_assoc]
      rw [first, segmentsFrom, List.forM_cons, run_bind_eq_ok_iff, run_bind_eq_ok_iff]
      exact exists_congr fun _ => exists_congr fun t => and_congr_right fun _ => ih few
    | _ => exact ih few

end Linking

/-- A field is an element segment. -/
def Node.isElem : Node → Bool
  | .elem .. => true
  | _ => false

/-- A field is a table with elements inside. -/
def Node.isFilledTable : Node → Bool
  | .table t => !t.elements.isEmpty
  | _ => false

/-- No element segment stands before a table with elements inside, so that the segments stay in order where the
fields are grouped by section. -/
def Module.ElementsInOrder (m : Module) : Prop :=
  m.fields.Pairwise fun x y => x.isElem = true → y.isFilledTable = false

instance (m : Module) : Decidable m.ElementsInOrder :=
  inferInstanceAs (Decidable (m.fields.Pairwise fun x y => x.isElem = true → y.isFilledTable = false))

namespace Linking

/-- Tables without elements of their own make no segments. -/
theorem filterMap_inlineSegment {tables : List TableDef} (unfilled : ∀ t ∈ tables, t.elements = []) (next : Nat) :
    ((tables.zipIdx next).map fun (t, k) => inlineSegment k t).filterMap id = [] := by
  refine List.filterMap_eq_nil_iff.2 fun segment inside => ?_
  obtain ⟨⟨t, k⟩, here, rfl⟩ := List.mem_map.1 inside
  have empty := unfilled t (List.fst_mem_of_mem_zipIdx here)
  simp [inlineSegment, empty]

/-- Where no element segment stands before a table with elements inside, those inside of tables come first. -/
theorem segmentsFrom_eq (name : Option String) (metadata : Option ModuleMetadata) {fields : List Node}
    (ordered : fields.Pairwise fun x y => x.isElem = true → y.isFilledTable = false) (next : Nat) :
    segmentsFrom next fields =
      (((Fields.ofModule ⟨name, fields, metadata⟩).tables.zipIdx next).map fun (t, k) =>
        inlineSegment k t).filterMap id ++ (Fields.ofModule ⟨name, fields, metadata⟩).elems := by
  induction fields generalizing next with
  | nil => rfl
  | cons field fields ih =>
    obtain ⟨after, rest⟩ := List.pairwise_cons.1 ordered
    cases field with
    | table t =>
      rw [segmentsFrom, ih rest]
      change _ = (((t :: (Fields.ofModule ⟨name, fields, metadata⟩).tables).zipIdx next).map _).filterMap id ++
        (Fields.ofModule ⟨name, fields, metadata⟩).elems
      rw [List.zipIdx_cons, List.map_cons, List.filterMap_cons]
      cases here : inlineSegment next t <;> simp [here]
    | elem target offset funcs =>
      have unfilled : ∀ t ∈ (Fields.ofModule ⟨name, fields, metadata⟩).tables, t.elements = [] := by
        intro t inside
        obtain ⟨field, listed, is⟩ := List.mem_filterMap.1 inside
        cases field <;> cases is
        simpa [Node.isFilledTable] using after _ listed rfl
      rw [segmentsFrom, ih rest]
      change _ = (((Fields.ofModule ⟨name, fields, metadata⟩).tables.zipIdx next).map _).filterMap id ++
        (target, offset, funcs) :: (Fields.ofModule ⟨name, fields, metadata⟩).elems
      rw [filterMap_inlineSegment unfilled, List.nil_append, List.nil_append]
    | _ => exact ih rest next

/-- Imported tables come before the others in the numbering of tables. -/
theorem countP_isTableImport (name : Option String) (metadata : Option ModuleMetadata) (fields : List Node) :
    fields.countP isTableImport = (Fields.ofModule ⟨name, fields, metadata⟩).importedTables := by
  induction fields with
  | nil => rfl
  | cons field fields ih =>
    cases field with
    | moduleImport decl =>
      obtain ⟨module, name, descr, id⟩ := decl
      rw [List.countP_cons, ih]
      cases descr <;> rfl
    | _ => exact ih

/-- In such an order the segments are written as the binary form has them. -/
theorem segmentsFrom_of_inOrder {m : Module} (ordered : m.ElementsInOrder) :
    segmentsFrom (m.fields.countP isTableImport) m.fields = (Fields.ofModule m).segments := by
  rw [segmentsFrom_eq m.id m.metadata ordered, countP_isTableImport m.id m.metadata]
  rfl

/-- Tables without elements are in order. -/
theorem inOrder_of_unfilled {m : Module} (unfilled : ∀ t ∈ (Fields.ofModule m).tables, t.elements = []) :
    m.ElementsInOrder ∧ (Fields.ofModule m).segments = (Fields.ofModule m).elems := by
  refine ⟨List.pairwise_of_forall_mem_list fun x _ y listed _ => ?_, ?_⟩
  · cases y with
    | table t => simp [Node.isFilledTable, unfilled t (List.mem_filterMap.2 ⟨_, listed, rfl⟩)]
    | _ => rfl
  · rw [Fields.segments, Fields.inlineSegments, filterMap_inlineSegment unfilled, List.nil_append]

/-- The segments of modules that say the same are written alike. -/
theorem writeSegments_of_restates {m m' : Module} (restates : m.Restates m')
    (inOrder : Typing.lateImports false m.fields = []) (ordered : m.ElementsInOrder)
    (few : m.countOf .table ≤ UInt32.size)
    {owner : Nat} {s s' t : Store} (stores : s.Renamed ρ t)
    (written : writeSegments owner m s = .ok () s') :
    ∃ t', writeSegments owner m' t = .ok () t' ∧ s'.Renamed ρ t' := by
  obtain ⟨ordered', segments⟩ := inOrder_of_unfilled restates.unfilled
  have few' : m'.countOf .table ≤ UInt32.size := by
    have same := (restates.definitions inOrder .table).length_eq
    rw [length_definitionsOf, length_definitionsOf] at same
    exact Nat.le_trans (Nat.le_of_eq same.symm) few
  have count (m : Module) : m.fields.countP isTableImport + (Fields.ofModule m).tables.length = m.countOf .table := by
    rw [countP_isTableImport m.id m.metadata, ← importedTables_add]
  rw [writeSegments, get_bind_eq, ofResult_bind_eq_ok_iff] at written
  obtain ⟨i, here, written⟩ := written
  obtain ⟨_, u, elements, data⟩ := run_bind_eq_ok_iff.1 written
  rw [writeElements_eq_ok_iff m.id m.metadata ((count m).symm ▸ few), segmentsFrom_of_inOrder ordered] at elements
  have found := stores.instances owner
  rw [here] at found
  generalize there : t.instance? owner = r at found
  obtain @⟨_, j, instances⟩ := found
  obtain ⟨_, v, elements', -, stores⟩ := (mirrors_forM restates.elems fun _ _ =>
    follows_fill instances).exists_ok stores elements
  rw [writeData_eq m.id m.metadata] at data
  obtain ⟨_, w, data', -, stores⟩ := (mirrors_forM restates.data fun _ _ =>
    follows_fillMemory instances).exists_ok stores data
  refine ⟨w, ?_, stores⟩
  rw [writeSegments, get_bind_eq, ofResult_bind_eq_ok_iff]
  refine ⟨j, there, run_bind_eq_ok_iff.2 ⟨(), v, ?_, ?_⟩⟩
  · rwa [writeElements_eq_ok_iff m'.id m'.metadata ((count m').symm ▸ few'), segmentsFrom_of_inOrder ordered',
      segments]
  · rwa [writeData_eq m'.id m'.metadata]

/-- Modules that say the same are allocated alike in an empty store. -/
theorem allocate_of_restates {imports : ImportObject} {refuseI64 : Bool} {m m' : Module}
    (restates : m.Restates m') (inOrder : Typing.lateImports false m.fields = []) (detached : imports.Detached)
    {owner : Nat} {s : Store} (allocated : allocate imports refuseI64 m .empty = .ok owner s) :
    ∃ ρ t, allocate imports refuseI64 m' .empty = .ok owner t ∧ s.Renamed ρ t := by
  rw [allocate, run_bind_eq_ok_iff] at allocated
  obtain ⟨_, _, added, allocated⟩ := allocated
  cases onStore_eq_ok_iff.1 added
  obtain ⟨i, u, fields, allocated⟩ := run_bind_eq_ok_iff.1 allocated
  obtain ⟨i', v, recorded, allocated⟩ := run_bind_eq_ok_iff.1 allocated
  obtain ⟨_, w, modified, allocated⟩ := run_bind_eq_ok_iff.1 allocated
  cases modified
  obtain ⟨rfl, rfl⟩ := run_pure_eq_ok_iff.1 allocated
  have nothing : Detached .empty { Store.empty with instances := #[.empty] } := by
    refine ⟨fun kind a inside => ?_, fun a e here => ?_⟩
    · cases kind <;> cases inside
    · cases here
  have blank (n : Nat) (i : ModuleInstance)
      (here : Store.instance? { Store.empty with instances := #[.empty] } n = .ok i) : i = .empty := by
    cases n with
    | zero => exact (Except.ok.inj here).symm
    | succ n => cases here
  obtain ⟨ρ, j, u', fields', instances, stores⟩ :=
    allocateFields_of_restates restates inOrder detached nothing blank fields
  obtain ⟨j', v', recorded', instances, stores⟩ :=
    (follows_recordExports refuseI64 instances restates.exports).exists_ok stores recorded
  refine ⟨ρ, v'.setInstance 0 j', ?_, stores.setInstance 0 instances⟩
  rw [allocate, run_bind_eq_ok_iff]
  refine ⟨0, _, rfl, run_bind_eq_ok_iff.2 ⟨j, u', fields', run_bind_eq_ok_iff.2 ⟨j', v', recorded', ?_⟩⟩⟩
  exact run_bind_eq_ok_iff.2 ⟨(), v'.setInstance 0 j', rfl, rfl⟩

end Linking

/-! ## Instantiation -/

namespace Running

variable {σ α β : Type} {ρ : Renaming}

/-- The start function is the first that is listed. -/
theorem start?_eq (m : Module) : m.start? = (Fields.ofModule m).starts.head? := by
  rw [Module.start?, Fields.ofModule]
  induction m.fields with
  | nil => rfl
  | cons field fields ih =>
    cases field with
    | start i => rfl
    | _ => exact ih

/-- Calls the start function of an instance, if it has one. -/
def runStart (env : Environment σ) (fuel owner : Nat) : Option Index → Running σ Nat
  | none => return owner
  | some index => do
    let i ← onLinking do Linking.ofResult ((← get).instance? owner)
    let n ← onLinking (Linking.ofResult index.resolved)
    let address ← onLinking (Linking.ofResult (i.func n))
    let _ ← invoke env fuel address []
    return owner

/-- Finishing an instantiation is writing the segments and running the start function. -/
theorem finish_eq (env : Environment σ) (fuel : Nat) (m : Module) (owner : Nat) : finish env fuel m owner =
    onLinking (Linking.writeSegments owner m) >>= fun _ => runStart env fuel owner m.start? := by
  unfold finish
  cases m.start? <;> rfl

/-- Start functions that stand for each other end alike. -/
theorem runStart_of_renamed {env : Environment σ} {fuel owner owner' : Nat} {index : Option Index} {s t : Store}
    {w : σ} {y : Store × σ} (stores : s.Renamed ρ t) (done : runStart env fuel owner index (s, w) = .ok owner' y) :
    ∃ y', runStart env fuel owner (index.map Index.respelled) (t, w) = .ok owner' y' ∧ RenamedWith ρ y y' := by
  cases index with
  | none =>
    obtain ⟨rfl, rfl⟩ := run_pure_eq_ok_iff.1 done
    exact ⟨_, rfl, stores, rfl⟩
  | some index =>
    obtain ⟨i, _, found, done⟩ := onLinking_bind_eq_ok_iff.1 done
    rw [Linking.get_bind_eq, Linking.ofResult_eq_ok_iff] at found
    obtain ⟨here, rfl⟩ := found
    obtain ⟨n, _, found, done⟩ := onLinking_bind_eq_ok_iff.1 done
    obtain ⟨resolved, rfl⟩ := Linking.ofResult_eq_ok_iff.1 found
    obtain ⟨a, _, found, done⟩ := onLinking_bind_eq_ok_iff.1 done
    obtain ⟨func, rfl⟩ := Linking.ofResult_eq_ok_iff.1 found
    obtain ⟨results, z, called, done⟩ := run_bind_eq_ok_iff.1 done
    obtain ⟨rfl, rfl⟩ := run_pure_eq_ok_iff.1 done
    rw [invoke_eq_ok_iff] at called
    -- The other instance has a function at an address that stands for this one.
    have instances := stores.instances owner
    rw [here] at instances
    generalize there : t.instance? owner = r at instances
    obtain @⟨_, j, same⟩ := instances
    have addresses := same.func n
    rw [func] at addresses
    generalize func' : j.func n = r at addresses
    obtain @⟨_, b, related⟩ := addresses
    have both : RenamedWith ρ (s, w) (t, w) := ⟨stores, rfl⟩
    obtain ends | ⟨_, _, failed, -⟩ := alike_invoke env fuel related [] both
    · rw [called] at ends
      generalize called' : WasmEngine.invoke env fuel b [] (t, w) = r at ends
      obtain @⟨_, _, _, z', same, renamed⟩ := ends
      refine ⟨z', ?_, renamed⟩
      refine onLinking_bind_eq_ok_iff.2 ⟨j, t, Linking.ofResult_eq_ok_iff.2 ⟨there, rfl⟩, ?_⟩
      refine onLinking_bind_eq_ok_iff.2 ⟨n, t, Linking.ofResult_eq_ok_iff.2 ⟨?_, rfl⟩, ?_⟩
      · rw [Index.resolved_respelled, resolved]
      refine onLinking_bind_eq_ok_iff.2 ⟨b, t, Linking.ofResult_eq_ok_iff.2 ⟨func', rfl⟩, ?_⟩
      exact run_bind_eq_ok_iff.2 ⟨_, z', invoke_eq_ok_iff.2 called', rfl⟩
    · rw [called] at failed
      cases failed

/-- What comes after the allocation is done alike. -/
theorem finish_of_restates {env : Environment σ} {fuel : Nat} {m m' : Module} (restates : m.Restates m')
    (inOrder : Typing.lateImports false m.fields = []) (ordered : m.ElementsInOrder)
    (few : m.countOf .table ≤ UInt32.size)
    {owner owner' : Nat} {s t : Store} {w : σ} {y : Store × σ} (stores : s.Renamed ρ t)
    (done : finish env fuel m owner (s, w) = .ok owner' y) :
    ∃ y', finish env fuel m' owner (t, w) = .ok owner' y' ∧ RenamedWith ρ y y' := by
  rw [finish_eq] at done ⊢
  obtain ⟨_, s', written, started⟩ := onLinking_bind_eq_ok_iff.1 done
  obtain ⟨t', written', stores⟩ := Linking.writeSegments_of_restates restates inOrder ordered few stores written
  obtain ⟨y', started', renamed⟩ := runStart_of_renamed stores started
  refine ⟨y', onLinking_bind_eq_ok_iff.2 ⟨(), t', written', ?_⟩, renamed⟩
  rwa [start?_eq, restates.starts, List.head?_map, ← start?_eq]

/-- A module that says the same has an instance of the same in an empty store, where no table that is offered has
addresses and no element segment stands before a table with elements inside. -/
theorem instantiate_of_restates {env : Environment σ} {fuel : Nat} {imports : ImportObject} {refuseI64 : Bool}
    {m m' : Module} (restates : m.Restates m') (inOrder : Typing.lateImports false m.fields = [])
    (ordered : m.ElementsInOrder)
    (few : m.countOf .table ≤ UInt32.size)
    (detached : imports.Detached) {w : σ} {owner : Nat} {x : Store × σ}
    (done : instantiate env fuel imports refuseI64 m (.empty, w) = .ok owner x) :
    ∃ ρ x', instantiate env fuel imports refuseI64 m' (.empty, w) = .ok owner x' ∧ RenamedWith ρ x x' := by
  obtain ⟨owner', s, allocated, finished⟩ := onLinking_bind_eq_ok_iff.1 done
  obtain ⟨ρ, t, allocated', stores⟩ := Linking.allocate_of_restates restates inOrder detached allocated
  obtain ⟨x', finished', renamed⟩ := finish_of_restates restates inOrder ordered few stores finished
  exact ⟨ρ, x', onLinking_bind_eq_ok_iff.2 ⟨owner', t, allocated', finished'⟩, renamed⟩

end Running

end WasmEngine
