import WasmEngine.Proofs.Embedding.Allocation

/-!
# A store that a module was linked into

Once its exports are recorded, an instance and its store are fit for checked code (`Linked`), and the
elements and data that are written then keep them so.
-/

namespace WasmEngine

open Typing Outcome

/-- A typed store with an instance that holds what a module declares. -/
structure Linked (offered : FuncType → Nat → Prop) (m : Module) (owner : Nat) (i : ModuleInstance)
    (s : Store) : Prop where
  typed : StoreTyped offered s
  here : s.instance? owner = .ok i
  held : InstanceTyped s (.ofModule m) i

/-- An export of a function stands for a field and has the address of its index. -/
def ExportsOf (i : ModuleInstance) (fields : List Node) (e : ExportInstance) : Prop :=
  ∃ decl, .moduleExport decl ∈ fields ∧ decl.name = e.name ∧ decl.descr.kind = e.value.kind ∧
    (e.value.kind = .func → ∃ n, decl.descr.id.number? = some n ∧ i.func n = .ok e.value.address)

/-! ## Exports -/

/-- An index that was resolved is a number. -/
theorem Index.number?_of_resolved {index : Index} {n : Nat} (resolved : index.resolved = .ok n) :
    index.number? = some n := by
  cases index with
  | number l => exact congrArg some (Except.ok.inj resolved)
  | identifier id => cases resolved

namespace Linking

variable {i i' : ModuleInstance} {s s' : Store}

theorem memoryAt_bind_eq_ok_iff {β : Type} {n : Nat} {f : Nat → Linking β} {b : β} :
    (memoryAt i n >>= f) s = .ok b s' ↔ ∃ a, i.mems[n]? = some a ∧ f a s = .ok b s' := by
  unfold memoryAt
  cases i.mems[n]? with
  | some a => simp
  | none => simp [run_bind_eq_ok_iff]

theorem tableAt_bind_eq_ok_iff {β : Type} {n : Nat} {f : Nat → Linking β} {b : β} :
    (tableAt i n >>= f) s = .ok b s' ↔ ∃ a, i.tables[n]? = some a ∧ f a s = .ok b s' := by
  unfold tableAt
  cases i.tables[n]? with
  | some a => simp
  | none => simp [run_bind_eq_ok_iff]

/-- An export that was resolved is in the instance. -/
theorem resolveExport_ok {decl : ModuleExport} {e : Extern}
    (resolved : resolveExport false i decl s = .ok e s') :
    s' = s ∧ decl.descr.kind = e.kind ∧
      (e.kind = .func → ∃ n, decl.descr.id.number? = some n ∧ i.func n = .ok e.address) := by
  rw [resolveExport, ofResult_bind_eq_ok_iff] at resolved
  obtain ⟨n, number, resolved⟩ := resolved
  cases kind : decl.descr.kind with
  | func =>
    simp only [kind] at resolved
    obtain ⟨address, found, ends⟩ := ofResult_bind_eq_ok_iff.1 resolved
    obtain ⟨rfl, rfl⟩ := run_pure_eq_ok_iff.1 ends
    exact ⟨rfl, rfl, fun _ => ⟨n, Index.number?_of_resolved number, found⟩⟩
  | global =>
    simp only [kind, Bool.false_eq_true, if_false] at resolved
    obtain ⟨address, -, ends⟩ := ofResult_bind_eq_ok_iff.1 resolved
    obtain ⟨rfl, rfl⟩ := run_pure_eq_ok_iff.1 ends
    exact ⟨rfl, rfl, nofun⟩
  | memory =>
    simp only [kind] at resolved
    obtain ⟨address, -, ends⟩ := memoryAt_bind_eq_ok_iff.1 resolved
    obtain ⟨rfl, rfl⟩ := run_pure_eq_ok_iff.1 ends
    exact ⟨rfl, rfl, nofun⟩
  | table =>
    simp only [kind] at resolved
    obtain ⟨address, -, ends⟩ := tableAt_bind_eq_ok_iff.1 resolved
    obtain ⟨rfl, rfl⟩ := run_pure_eq_ok_iff.1 ends
    exact ⟨rfl, rfl, nofun⟩

/-- Recording exports changes nothing else. -/
theorem recordExports_ok {fields all : List Node} (recorded : recordExports false i fields s = .ok i' s')
    (members : ∀ field ∈ fields, field ∈ all) (before : ∀ e ∈ i.exports, ExportsOf i all e) :
    s' = s ∧ i' = { i with exports := i'.exports } ∧ ∀ e ∈ i'.exports, ExportsOf i all e := by
  induction fields generalizing i s with
  | nil =>
    rw [recordExports, run_pure_eq_ok_iff] at recorded
    obtain ⟨rfl, rfl⟩ := recorded
    exact ⟨rfl, rfl, before⟩
  | cons field fields ih =>
    have others := fun other inside => members other (List.mem_cons_of_mem _ inside)
    by_cases isExport : ∃ decl, field = .moduleExport decl
    · obtain ⟨decl, rfl⟩ := isExport
      rw [recordExports, run_bind_eq_ok_iff] at recorded
      obtain ⟨e, t, resolved, recorded⟩ := recorded
      obtain ⟨rfl, kind, function⟩ := resolveExport_ok resolved
      have exported : ∀ e' ∈ i.exports ++ [⟨decl.name, e⟩], ExportsOf i all e' := by
        intro e' inside
        obtain inside | inside := List.mem_append.1 inside
        · exact before e' inside
        · obtain rfl := List.mem_singleton.1 inside
          exact ⟨decl, members _ (List.mem_cons_self ..), rfl, kind, function⟩
      have rest := ih recorded others exported
      exact rest
    · have rest : recordExports false i fields s = .ok i' s' := by
        cases field <;> first
          | exact recorded
          | exact absurd ⟨_, rfl⟩ isExport
      exact ih rest others before

end Linking

/-! ## From an allocation to a linked store -/

variable {imports : ImportObject} {m : Module} {owner : Nat} {i : ModuleInstance} {s s' : Store}

/-- An instance that differs in its exports alone holds the same. -/
theorem InstanceTyped.of_same {ctx : ModuleContext} {j : ModuleInstance}
    (typed : InstanceTyped s ctx i) (same : ∀ a, s'.get? a = s.get? a)
    (others : j = { i with exports := j.exports }) : InstanceTyped s' ctx j := by
  rw [others]
  have grows : s.Grows s' := fun a e here => ⟨e, (same a).trans here, .refl e⟩
  have kept := typed.mono grows
  exact ⟨kept.funcs, kept.globals, kept.mems, kept.tables⟩

/-- The functions that an import object offers. -/
def ImportObject.OffersFunc (imports : ImportObject) (type : FuncType) (handle : Nat) : Prop :=
  imports.Offers (.func type handle)

/-- Every address in a table that an import object offers is a function of a store. -/
def ImportObject.TablesHold (imports : ImportObject) (s : Store) : Prop :=
  ∀ t, imports.Offers (.table t) → ∀ b, some b ∈ t.slots → ∃ f, s.func b = .ok f

/-- What was allocated is linked once its exports are recorded. -/
theorem Allocating.linked (now : Allocating imports m owner (.ofModule m) i s)
    (checked : m.Checked) {j : ModuleInstance} (others : j = { i with exports := j.exports })
    (tables : imports.TablesHold (s.setInstance owner j)) :
    Linked imports.OffersFunc m owner j (s.setInstance owner j) := by
  have here : (s.setInstance owner j).instance? owner = .ok j := by
    simp [Store.instance?, Store.setInstance, now.known]
  have held : InstanceTyped (s.setInstance owner j) (.ofModule m) j :=
    now.held.of_same (fun _ => rfl) others
  refine ⟨⟨fun a f found => ?_, fun a g found => ?_, fun a t found b slot => ?_⟩, here, held⟩
  · have fresh := now.entries a _ (Store.func_eq_ok.1 found)
    obtain ⟨type, code⟩ := f
    cases code with
    | host handle => exact fresh
    | wasm f o =>
      obtain ⟨rfl, member, type⟩ := fresh
      exact ⟨_, j, here, held, type, checked.functions f member,
        (Node.everyIn_iff.1 checked.explicit _ member).2⟩
  · exact now.entries a _ (Store.global_eq_ok.1 found)
  · obtain ⟨t', offers, slot⟩ := now.entries a _ (Store.table_eq_ok.1 found) b slot
    exact tables t' offers b slot

/-! ## Elements and data -/

/-- A table that was filled has its old addresses and the new ones. -/
theorem Table.mem_of_fill {t filled : Table} {offset b : Nat} {addresses : List Nat}
    (fills : t.fill offset addresses = .ok filled) (slot : some b ∈ filled.slots) :
    some b ∈ t.slots ∨ b ∈ addresses := by
  unfold Table.fill at fills
  split_ifs at fills
  cases fills
  simp only [List.mem_append, List.mem_map, Option.some.injEq, exists_eq_right] at slot
  obtain (slot | slot) | slot := slot
  · exact .inl (List.mem_of_mem_take slot)
  · exact .inr slot
  · exact .inl (List.mem_of_mem_drop slot)

/-- Filling a table puts it in its place in the store. -/
theorem Store.fillTable_ok {a offset : Nat} {funcs : List Nat}
    (filled : Store.fillTable a offset funcs s = .ok () s') :
    ∃ t t', s.table a = .ok t ∧ t.fill offset funcs = .ok t' ∧ s' = s.put a (.table t') := by
  rw [Store.fillTable_eq] at filled
  split at filled
  · cases filled
  · next t here =>
    split at filled
    · cases filled
    · next t' fills =>
      cases filled
      exact ⟨t, t', here, fills, rfl⟩

theorem Store.grows_put_table {a : Nat} {t : Table} (here : s.table a = .ok t) (t' : Table) :
    s.Grows (s.put a (.table t')) := by
  have entry := Store.table_eq_ok.1 here
  intro b e found
  rw [Store.get?_put (Store.lt_size_of_get? entry)]
  by_cases same : b = a
  · subst same
    rw [entry] at found
    cases found
    exact ⟨_, if_pos rfl, t', rfl⟩
  · exact ⟨e, by rw [if_neg same, found], .refl e⟩

/-- A table may be replaced by one whose further addresses are of functions. -/
theorem Linked.put_table {offered : FuncType → Nat → Prop} {a : Nat} {t t' : Table}
    (linked : Linked offered m owner i s) (here : s.table a = .ok t)
    (slots : ∀ b, some b ∈ t'.slots → some b ∈ t.slots ∨ ∃ f, s.func b = .ok f) :
    Linked offered m owner i (s.put a (.table t')) := by
  have entry := Store.table_eq_ok.1 here
  have known := Store.lt_size_of_get? entry
  have grows := Store.grows_put_table here t'
  have other : ∀ b, b ≠ a → (s.put a (.table t')).get? b = s.get? b := fun b ne => by
    rw [Store.get?_put known, if_neg ne]
  have there : (s.put a (.table t')).get? a = some (.table t') := by
    rw [Store.get?_put known, if_pos rfl]
  refine ⟨⟨fun b f found => ?_, fun b g found => ?_, fun b u found c slot => ?_⟩, linked.here,
    linked.held.mono grows⟩
  · have ne : b ≠ a := by
      rintro rfl
      rw [Store.func_eq_ok, there] at found
      cases found
    rw [Store.func_eq_ok, other b ne, ← Store.func_eq_ok] at found
    have checked := linked.typed.functions b f found
    obtain ⟨type, code⟩ := f
    cases code with
    | host handle => exact checked
    | wasm f o =>
      obtain ⟨ctx, j, held, typed, others⟩ := checked
      exact ⟨ctx, j, held, typed.mono grows, others⟩
  · have ne : b ≠ a := by
      rintro rfl
      rw [Store.global_eq_ok, there] at found
      cases found
    rw [Store.global_eq_ok, other b ne, ← Store.global_eq_ok] at found
    exact linked.typed.globals b g found
  · have func : ∃ f, s.func c = .ok f := by
      by_cases same : b = a
      · subst same
        rw [Store.table_eq_ok, there] at found
        cases found
        obtain slot | func := slots c slot
        · exact linked.typed.tables b t here c slot
        · exact func
      · rw [Store.table_eq_ok, other b same, ← Store.table_eq_ok] at found
        exact linked.typed.tables b u found c slot
    obtain ⟨f, func⟩ := func
    exact ⟨f, grows.func func⟩

namespace Linking

/-- The addresses that were found are those of functions of the instance. -/
theorem mem_of_funcAddresses {indices : List Index} {funcs : List Nat}
    (found : funcAddresses i indices = .ok funcs) : ∀ b ∈ funcs, ∃ n, i.func n = .ok b := by
  induction indices generalizing funcs with
  | nil =>
    obtain rfl := Except.ok.inj found
    exact fun b inside => absurd inside List.not_mem_nil
  | cons index indices ih =>
    rw [funcAddresses, List.mapM_cons, bind_eq_ok_iff] at found
    obtain ⟨b, first, found⟩ := found
    obtain ⟨bs, rest, found⟩ := bind_eq_ok_iff.1 found
    obtain ⟨n, -, first⟩ := bind_eq_ok_iff.1 first
    obtain rfl := pure_eq_ok_iff.1 found
    intro c inside
    obtain rfl | inside := List.mem_cons.1 inside
    · exact ⟨n, first⟩
    · exact ih rest c inside

theorem onStore_eq_ok_iff {α : Type} {f : StoreM α} {a : α} :
    onStore f s = .ok a s' ↔ f s = .ok a s' := by
  unfold onStore
  cases f s <;> simp

variable {offered : FuncType → Nat → Prop}

/-- Filling a table with functions of the instance keeps it linked. -/
theorem fill_linked (linked : Linked offered m owner i s) {indices : List Index}
    {funcs : List Nat} (found : funcAddresses i indices = .ok funcs) {a offset : Nat}
    (filled : onStore (Store.fillTable a offset funcs) s = .ok () s') :
    Linked offered m owner i s' := by
  obtain ⟨t, t', here, fills, rfl⟩ := Store.fillTable_ok (onStore_eq_ok_iff.1 filled)
  refine linked.put_table here fun b slot => ?_
  obtain slot | inside := Table.mem_of_fill fills slot
  · exact .inl slot
  · obtain ⟨n, address⟩ := mem_of_funcAddresses found b inside
    obtain ⟨f, func, -⟩ := linked.held.func? address
    exact .inr ⟨f, func⟩

/-- Writing the element segments keeps an instance linked. -/
theorem writeElements_linked {fields : List Node} {next : Nat} (linked : Linked offered m owner i s)
    (written : writeElements i next fields s = .ok () s') : Linked offered m owner i s' := by
  induction fields generalizing next s with
  | nil =>
    obtain ⟨-, rfl⟩ := run_pure_eq_ok_iff.1 written
    exact linked
  | cons field fields ih =>
    cases field with
    | table t =>
      rw [writeElements] at written
      by_cases empty : t.elements.isEmpty
      · simp only [empty, Bool.not_true, Bool.false_eq_true, if_false] at written
        exact ih linked written
      · simp only [empty, Bool.not_false, if_true] at written
        obtain ⟨funcs, found, rest⟩ := ofResult_bind_eq_ok_iff.1 written
        obtain ⟨a, -, rest⟩ := tableAt_bind_eq_ok_iff.1 rest
        obtain ⟨_, u, filled, rest⟩ := run_bind_eq_ok_iff.1 rest
        exact ih (fill_linked linked found filled) rest
    | elem target offset funcs =>
      rw [writeElements, ofResult_bind_eq_ok_iff] at written
      obtain ⟨n, -, written⟩ := written
      rw [tableAt_bind_eq_ok_iff] at written
      obtain ⟨a, -, written⟩ := written
      rw [get_bind_eq, ofResult_bind_eq_ok_iff] at written
      obtain ⟨place, -, written⟩ := written
      rw [ofResult_bind_eq_ok_iff] at written
      obtain ⟨addresses, found, written⟩ := written
      rw [run_bind_eq_ok_iff] at written
      obtain ⟨_, u, filled, rest⟩ := written
      exact ih (fill_linked linked found filled) rest
    | _ => exact ih linked written

/-- Writing the data segments lets the store evolve. -/
theorem writeData_evolves {fields : List Node} (written : writeData i fields s = .ok () s') :
    Evolves s s' := by
  induction fields generalizing s with
  | nil =>
    obtain ⟨-, rfl⟩ := run_pure_eq_ok_iff.1 written
    exact .refl s
  | cons field fields ih =>
    cases field with
    | data target offset init =>
      rw [writeData, ofResult_bind_eq_ok_iff] at written
      obtain ⟨n, -, written⟩ := written
      rw [memoryAt_bind_eq_ok_iff] at written
      obtain ⟨a, -, written⟩ := written
      rw [get_bind_eq, ofResult_bind_eq_ok_iff] at written
      obtain ⟨place, -, written⟩ := written
      rw [run_bind_eq_ok_iff] at written
      obtain ⟨_, u, put, rest⟩ := written
      exact (Evolves.of_writeMemory (onStore_eq_ok_iff.1 put)).trans (ih rest)
    | _ => exact ih written

/-! ## Linking a module -/

/-- A module that was allocated in a store that had nothing. -/
theorem allocate_linked (checked : m.Checked)
    (allocated : allocate imports false m .empty = .ok owner s) (tables : imports.TablesHold s) :
    ∃ i, Linked imports.OffersFunc m owner i s ∧ ∀ e ∈ i.exports, ExportsOf i m.fields e := by
  have added : ∀ f : Nat → Linking Nat, (onStore (Store.addInstance .empty) >>= f) .empty =
      f 0 ⟨#[], #[.empty]⟩ := fun f => rfl
  rw [allocate, added, run_bind_eq_ok_iff] at allocated
  obtain ⟨i, t, fields, allocated⟩ := allocated
  have start : Allocating imports m 0 .empty .empty ⟨#[], #[.empty]⟩ := by
    refine ⟨⟨.nil, .nil, .nil, .nil⟩, fun a e here => ?_, Nat.zero_lt_one, rfl⟩
    simp [Store.get?] at here
  have now := allocateFields_ok start checked (fun _ inside => inside) fields
  rw [run_bind_eq_ok_iff] at allocated
  obtain ⟨j, u, recorded, allocated⟩ := allocated
  obtain ⟨rfl, others, exported⟩ := recordExports_ok recorded (fun _ inside => inside)
    (by simp [now.exports])
  have set_ : (modify fun store => store.setInstance 0 j : Linking Unit) u =
      .ok () (u.setInstance 0 j) := rfl
  rw [bind_ok set_, run_pure_eq_ok_iff] at allocated
  obtain ⟨rfl, rfl⟩ := allocated
  refine ⟨j, now.linked checked others tables, fun e inside => ?_⟩
  rw [others]
  exact exported e inside

/-- Writing all segments keeps an instance linked, and lets the store evolve from there on. -/
theorem writeSegments_linked (linked : Linked imports.OffersFunc m owner i s)
    (written : writeSegments owner m s = .ok () s') :
    ∃ t, Linked imports.OffersFunc m owner i t ∧ Evolves t s' := by
  rw [writeSegments, get_bind_eq, ofResult_bind_eq_ok_iff] at written
  obtain ⟨j, here, written⟩ := written
  obtain rfl := Except.ok.inj (linked.here.symm.trans here)
  rw [run_bind_eq_ok_iff] at written
  obtain ⟨_, t, elements, data⟩ := written
  exact ⟨t, writeElements_linked linked elements, writeData_evolves data⟩

end Linking

end WasmEngine
