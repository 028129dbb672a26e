import WasmEngine.Proofs.Embedding.DefinedEntries
import WasmEngine.Proofs.Embedding.IndexSpaces

/-!
# Allocating modules that say the same

Modules that say the same are allocated as instances whose addresses stand for each other: what they import has
the same addresses, and what they define has the addresses of its index.
-/

namespace WasmEngine

open Node Outcome Binary.Encode

/-! ## New addresses -/

/-- The addresses of the entries of a kind that are allocated from an address on. -/
def addressesOf (kind : ExportKind) : Nat → List StoreEntry → List Nat
  | _, [] => []
  | a, e :: es => if e.kind = kind then a :: addressesOf kind (a + 1) es else addressesOf kind (a + 1) es

/-- Elements that are paired with others, each occurring once, are the same on the left just if they are so on
the right. -/
theorem zip_injective {as bs : List Nat} (once : as.Nodup) (once' : bs.Nodup) {a a' b b' : Nat}
    (both : (a, b) ∈ as.zip bs) (both' : (a', b') ∈ as.zip bs) : a = a' ↔ b = b' := by
  obtain ⟨k, hk, here⟩ := List.mem_iff_getElem.1 both
  obtain ⟨l, hl, there⟩ := List.mem_iff_getElem.1 both'
  rw [List.getElem_zip, Prod.mk.injEq] at here there
  obtain ⟨rfl, rfl⟩ := here
  obtain ⟨rfl, rfl⟩ := there
  rw [once.getElem_inj_iff, once'.getElem_inj_iff]

/-- The store with entries at new addresses. -/
def Store.allocAll (s : Store) (es : List StoreEntry) : Store := es.foldl Store.alloc s

/-- The instance with the addresses of entries that are allocated from an address on. -/
def ModuleInstance.pushAll : ModuleInstance → Nat → List StoreEntry → ModuleInstance
  | i, _, [] => i
  | i, a, e :: es => (i.push a e.kind).pushAll (a + 1) es

/-- Entries in a row add their addresses to the space of each kind. -/
theorem ModuleInstance.space_pushAll (i : ModuleInstance) (a : Nat) (es : List StoreEntry) (kind : ExportKind) :
    (i.pushAll a es).space kind = i.space kind ++ addressesOf kind a es := by
  induction es generalizing i a with
  | nil => rw [pushAll, addressesOf, List.append_nil]
  | cons e es ih =>
    rw [pushAll, addressesOf, ih, space_push]
    split_ifs <;> simp

theorem ModuleInstance.exports_pushAll (i : ModuleInstance) (a : Nat) (es : List StoreEntry) :
    (i.pushAll a es).exports = i.exports := by
  induction es generalizing i a with
  | nil => rfl
  | cons e es ih =>
    rw [pushAll, ih]
    cases e.kind <;> rfl

/-- The addresses of a kind are among those of the new entries. -/
theorem addressesOf_sublist (kind : ExportKind) (a : Nat) (es : List StoreEntry) :
    (addressesOf kind a es).Sublist (List.range' a es.length) := by
  induction es generalizing a with
  | nil => exact .slnil
  | cons e es ih =>
    rw [addressesOf, List.length_cons, List.range'_succ]
    split_ifs
    · exact (ih (a + 1)).cons_cons a
    · exact (ih (a + 1)).cons a

/-- No entry has two addresses. -/
theorem nodup_addressesOf (kind : ExportKind) (a : Nat) (es : List StoreEntry) :
    (addressesOf kind a es).Nodup := (addressesOf_sublist kind a es).nodup List.nodup_range'

theorem le_of_mem_addressesOf {kind : ExportKind} {a b : Nat} {es : List StoreEntry}
    (inside : b ∈ addressesOf kind a es) : a ≤ b :=
  (List.mem_range'_1.1 ((addressesOf_sublist kind a es).subset inside)).1

namespace Store

/-- New entries leave the others in place. -/
theorem get?_allocAll (s : Store) (es : List StoreEntry) {a : Nat} {e : StoreEntry} (here : s.get? a = some e) :
    (s.allocAll es).get? a = some e := by
  induction es generalizing s with
  | nil => exact here
  | cons first es ih =>
    refine ih (s.alloc first) ?_
    rw [get?_alloc, if_neg (Nat.ne_of_lt (lt_size_of_get? here)), here]

theorem instances_allocAll (s : Store) (es : List StoreEntry) : (s.allocAll es).instances = s.instances := by
  induction es generalizing s with
  | nil => rfl
  | cons e es ih => exact ih (s.alloc e)

/-- The addresses of a kind are those of the entries of the kind. -/
theorem entries_addressesOf (s : Store) (es : List StoreEntry) (kind : ExportKind) :
    List.Forall₂ (fun a e => (s.allocAll es).get? a = some e) (addressesOf kind s.size es)
      (es.filter (·.kind == kind)) := by
  induction es generalizing s with
  | nil => exact .nil
  | cons e es ih =>
    have rest := ih (s.alloc e)
    rw [size_alloc] at rest
    rw [addressesOf, List.filter_cons]
    by_cases same : e.kind = kind
    · rw [if_pos same, if_pos (beq_iff_eq.2 same)]
      exact .cons (get?_allocAll (s.alloc e) es (s.get?_alloc_size e)) rest
    · rw [if_neg same, if_neg (mt beq_iff_eq.1 same)]
      exact rest

end Store

/-! ## Instances with the same addresses -/

/-- Instances with the same addresses and exports. -/
structure ModuleInstance.Matches (i j : ModuleInstance) : Prop where
  space : ∀ kind, j.space kind = i.space kind
  exports : j.exports = i.exports

namespace ModuleInstance.Matches

variable {i j : ModuleInstance} {s : Store} {values : List Value}

theorem refl (i : ModuleInstance) : i.Matches i := ⟨fun _ => rfl, rfl⟩

theorem symm (same : i.Matches j) : j.Matches i := ⟨fun kind => (same.space kind).symm, same.exports.symm⟩

theorem trans {k : ModuleInstance} (first : i.Matches j) (second : j.Matches k) : i.Matches k :=
  ⟨fun kind => (second.space kind).trans (first.space kind), second.exports.trans first.exports⟩

/-- Matching instances match after both got one more address. -/
theorem push (same : i.Matches j) (a : Nat) (kind : ExportKind) : (i.push a kind).Matches (j.push a kind) where
  space other := by rw [space_push, space_push, same.space]
  exports := by cases kind <;> exact same.exports

theorem knows (same : i.Matches j) (knows : i.Knows s values) : j.Knows s values := by
  have globals : j.globals = i.globals := same.space .global
  rwa [Knows, globals]

end ModuleInstance.Matches

/-- An instance that gets the address of a new entry knows its value. -/
theorem ModuleInstance.Knows.push {i : ModuleInstance} {s : Store} {values : List Value} (knows : i.Knows s values)
    (e : StoreEntry) : (i.push s.size e.kind).Knows (s.alloc e) (values ++ e.value?.toList) := by
  have before : i.Knows (s.alloc e) values := knows.imp fun a v ⟨g, here, value⟩ =>
    ⟨g, Store.global_eq_ok.2 (Store.get?_allocAll s [e] (Store.global_eq_ok.1 here)), value⟩
  cases e with
  | global g =>
    exact List.rel_append before (.cons ⟨g, Store.global_eq_ok.2 (s.get?_alloc_size _), rfl⟩ .nil)
  | _ =>
    change Knows _ _ (values ++ [])
    rwa [List.append_nil]

/-! ## Fields -/

variable {imports : ImportObject} {ctx ctx' : ModuleContext} {owner : Nat} {i i' j : ModuleInstance}
  {s s' : Store} {values : List Value} {field : Node} {fields : List Node} {d : Definition}
  {es : List StoreEntry} {decl decl' : ModuleImport} {decls decls' : List ModuleImport}

namespace Linking

/-- A field that defines nothing adds nothing. -/
theorem allocateField_eq_pure (imports : ImportObject) (ctx : ModuleContext) (owner : Nat)
    (none : field.definition? = none) (i : ModuleInstance) :
    ∃ j, i.Matches j ∧ allocateField imports ctx owner i field = pure j := by
  cases field with
  | moduleImport | func | table | memory | global => cases none
  | typeDef t =>
    refine ⟨{ i with types := i.types ++ [t.functype.funcType] }, ⟨fun kind => ?_, rfl⟩, rfl⟩
    cases kind <;> rfl
  | _ => exact ⟨i, .refl i, rfl⟩

/-! ### Imports -/

/-- Imports of the same bring in the same, whatever the instances hold besides addresses. -/
theorem mirrors_resolveImport (reads : Binary.ImportReads decl decl') (same : i.Matches j) :
    Mirrors Eq ModuleInstance.Matches (resolveImport imports ctx i decl) (resolveImport imports ctx' j decl') := by
  obtain ⟨module, name, descr, id⟩ := decl
  obtain ⟨module', name', descr', id'⟩ := decl'
  have alike := reads.alike
  obtain ⟨rfl, rfl, -⟩ := reads
  unfold resolveImport
  dsimp only
  split
  · exact mirrors_throw _
  · cases alike with
    | @func d d' signature =>
      obtain ⟨sig, sig', here, there, type⟩ := signature
      simp only [here, there, ModuleContext.funcType, type, importFunc]
      split
      · split_ifs
        · exact mirrors_throw _
        · exact (mirrors_refl _).bind fun a _ here => here ▸ mirrors_pure (same.push a .func)
      · refine mirrors_look fun s t here => here ▸ (mirrors_refl _).bind fun f _ found => found ▸ ?_
        split_ifs
        · exact mirrors_throw _
        · exact mirrors_pure (same.push _ .func)
      · exact mirrors_throw _
    | global type =>
      simp only [importGlobal]
      split
      · split_ifs
        · exact mirrors_throw _
        · exact (mirrors_refl _).bind fun a _ here => here ▸ mirrors_pure (same.push a .global)
      · refine mirrors_look fun s t here => here ▸ (mirrors_refl _).bind fun f _ found => found ▸ ?_
        split_ifs
        · exact mirrors_throw _
        · exact mirrors_pure (same.push _ .global)
      · exact mirrors_throw _
    | memory limits =>
      simp only [importMemory]
      split
      · exact (mirrors_refl _).bind fun a _ here => here ▸ mirrors_pure (same.push a .memory)
      · refine mirrors_look fun s t here => here ▸ (mirrors_refl _).bind fun m _ _ => ?_
        exact mirrors_pure (same.push _ .memory)
      · exact mirrors_throw _
    | table limits =>
      simp only [importTable]
      split
      · exact (mirrors_refl _).bind fun a _ here => here ▸ mirrors_pure (same.push a .table)
      · refine mirrors_look fun s t here => here ▸ (mirrors_refl _).bind fun m _ _ => ?_
        exact mirrors_pure (same.push _ .table)
      · exact mirrors_throw _

/-- Fields that define nothing but imports bring in what the imports do one after the other. -/
theorem mirrors_allocateFields (only : fields.filterMap Node.definition? = decls.map .imported)
    (reads : List.Forall₂ Binary.ImportReads decls decls') (same : i.Matches j) :
    Mirrors Eq ModuleInstance.Matches (allocateFields imports ctx owner i fields)
      (decls'.foldlM (resolveImport imports ctx') j) := by
  induction fields generalizing decls decls' i j with
  | nil =>
    obtain rfl : decls = [] := List.map_eq_nil_iff.1 only.symm
    cases reads
    exact mirrors_pure same
  | cons field fields ih =>
    rw [List.filterMap_cons] at only
    cases defines : field.definition? with
    | none =>
      rw [defines] at only
      obtain ⟨k, kept, added⟩ := allocateField_eq_pure imports ctx owner defines i
      rw [allocateFields, added, pure_bind]
      exact ih only reads (kept.symm.trans same)
    | some d =>
      rw [defines] at only
      obtain ⟨decl, later, rfl, rfl, rest⟩ := List.map_eq_cons_iff.1 only.symm
      obtain _ | ⟨first, others⟩ := reads
      rw [List.foldlM_cons]
      cases field <;> cases defines
      exact (mirrors_resolveImport first same).bind fun _ _ next => ih rest.symm others next

end Linking

/-- No table that is offered holds addresses. -/
def ImportObject.Detached (imports : ImportObject) : Prop :=
  ∀ t, imports.Offers (.table t) → ∀ slot ∈ t.slots, slot = none

/-- What an embedding offers is the same in both stores. -/
theorem StoreEntry.Offered.renamed {imports : ImportObject} {e : StoreEntry} (offered : e.Offered imports)
    (detached : imports.Detached) (ρ : Nat → Nat → Prop) : e.Renamed ρ e := by
  cases offered with
  | func type handle => exact .func ⟨rfl, .host handle⟩
  | global g => exact .global g
  | memory m => exact .memory m
  | table offers =>
    exact .table rfl (List.forall₂_same.2 fun slot inside => detached _ offers slot inside ▸ .none)

/-- What a definition has in the store is an entry of its kind. -/
theorem Definition.Holds.exists_entry {ctx : ModuleContext} {owner : Nat} {s : Store} {a : Nat} {d : Definition}
    (holds : d.Holds ctx owner s a) : ∃ e, s.get? a = some e ∧ e.kind = d.kind := by
  cases d with
  | imported decl =>
    obtain ⟨module, name, descr, id⟩ := decl
    cases descr with
    | func d =>
      obtain ⟨f, here, -⟩ := holds
      exact ⟨_, Store.func_eq_ok.1 here, rfl⟩
    | table t =>
      obtain ⟨t, here⟩ := holds
      exact ⟨_, Store.table_eq_ok.1 here, rfl⟩
    | memory d =>
      obtain ⟨m, here⟩ := holds
      exact ⟨_, Store.memory_eq_ok.1 here, rfl⟩
    | global type =>
      obtain ⟨g, here, -⟩ := holds
      exact ⟨_, Store.global_eq_ok.1 here, rfl⟩
  | func f => exact ⟨_, Store.func_eq_ok.1 holds, rfl⟩
  | table t =>
    obtain ⟨t, here, -⟩ := holds
    exact ⟨_, Store.table_eq_ok.1 here, rfl⟩
  | memory d =>
    obtain ⟨m, here, -⟩ := holds
    exact ⟨_, Store.memory_eq_ok.1 here, rfl⟩
  | global type init =>
    obtain ⟨g, here, -⟩ := holds
    exact ⟨_, Store.global_eq_ok.1 here, rfl⟩

/-- What an instance holds is in the store, where no entry has addresses. -/
structure Detached (i : ModuleInstance) (s : Store) : Prop where
  held : ∀ kind, ∀ a ∈ i.space kind, ∃ e, s.get? a = some e ∧ e.kind = kind
  entries : ∀ a e, s.get? a = some e → ∀ ρ, e.Renamed ρ e

namespace Linking

/-- Imports of a detached embedding add detached entries. -/
theorem detached_resolveImport (detached : imports.Detached) (now : Detached i s)
    (resolved : resolveImport imports ctx i decl s = .ok i' s') :
    Detached i' s' ∧ s'.instances = s.instances ∧ i'.exports = i.exports := by
  have brings : ∃ a, i' = i.push a decl.descr.kind ∧ (Definition.imported decl).Holds ctx 0 s' a ∧ _ :=
    resolveImport_cases resolved
  obtain ⟨a, rfl, holds, grows⟩ := brings
  obtain ⟨e, here, kind⟩ := holds.exists_entry
  have stays {b : Nat} {f : StoreEntry} (there : s.get? b = some f) : s'.get? b = some f := by
    obtain rfl | ⟨e, -, rfl⟩ := grows
    · exact there
    · exact Store.get?_allocAll s [e] there
  refine ⟨⟨fun other b inside => ?_, fun b f there => ?_⟩, ?_, by cases decl.descr <;> rfl⟩
  · rw [ModuleInstance.space_push] at inside
    rcases List.mem_append.1 inside with before | new
    · obtain ⟨f, there, same⟩ := now.held other b before
      exact ⟨f, stays there, same⟩
    · split_ifs at new with same
      · obtain rfl := List.mem_singleton.1 new
        exact ⟨e, here, kind.trans same⟩
      · cases new
  · obtain rfl | ⟨e, offered, rfl⟩ := grows
    · exact now.entries b f there
    · rw [Store.get?_alloc] at there
      split_ifs at there
      · cases there
        exact offered.renamed detached
      · exact now.entries b f there
  · obtain rfl | ⟨e, -, rfl⟩ := grows <;> rfl

/-- All imports of a detached embedding together add detached entries. -/
theorem detached_resolveImports (detached : imports.Detached) (now : Detached i s)
    (resolved : decls.foldlM (resolveImport imports ctx) i s = .ok i' s') :
    Detached i' s' ∧ s'.instances = s.instances ∧ i'.exports = i.exports := by
  induction decls generalizing i s with
  | nil =>
    obtain ⟨rfl, rfl⟩ := run_pure_eq_ok_iff.1 resolved
    exact ⟨now, rfl, rfl⟩
  | cons decl decls ih =>
    rw [List.foldlM_cons, run_bind_eq_ok_iff] at resolved
    obtain ⟨j, t, first, rest⟩ := resolved
    obtain ⟨next, instances, exports⟩ := detached_resolveImport detached now first
    obtain ⟨last, instances', exports'⟩ := ih next rest
    exact ⟨last, instances'.trans instances, exports'.trans exports⟩

/-! ### Definitions -/

/-- A field that defines something of its own creates an entry for it. -/
theorem allocateField_eq_ok_iff (knows : i.Knows s values) (defines : field.definition? = some d)
    (own : ∀ decl, field ≠ .moduleImport decl) : allocateField imports ctx owner i field s = .ok i' s' ↔
      ∃ e, d.Creates ctx owner values e ∧ i' = i.push s.size e.kind ∧ s' = s.alloc e := by
  cases field with
  | moduleImport decl => exact absurd rfl (own decl)
  | func name sig locals body metadata =>
    cases defines
    rw [allocateField, malloc_bind_eq, run_pure_eq_ok_iff]
    constructor
    · rintro ⟨rfl, rfl⟩
      exact ⟨_, .func _, rfl, rfl⟩
    · rintro ⟨e, creates, rfl, rfl⟩
      cases creates
      exact ⟨rfl, rfl⟩
  | table t =>
    cases defines
    rw [allocateField, malloc_bind_eq, run_pure_eq_ok_iff]
    constructor
    · rintro ⟨rfl, rfl⟩
      exact ⟨_, .table t, rfl, rfl⟩
    · rintro ⟨e, creates, rfl, rfl⟩
      cases creates
      exact ⟨rfl, rfl⟩
  | memory m =>
    cases defines
    rw [allocateField, ofResult_bind_eq_ok_iff]
    constructor
    · rintro ⟨m, created, allocated⟩
      rw [malloc_bind_eq, run_pure_eq_ok_iff] at allocated
      obtain ⟨rfl, rfl⟩ := allocated
      exact ⟨_, .memory created, rfl, rfl⟩
    · rintro ⟨e, creates, rfl, rfl⟩
      cases creates with
      | memory created => exact ⟨_, created, rfl⟩
  | global type init name =>
    cases defines
    rw [allocateField, get_bind_eq, ofResult_bind_eq_ok_iff]
    constructor
    · rintro ⟨v, value, allocated⟩
      rw [malloc_bind_eq, run_pure_eq_ok_iff] at allocated
      obtain ⟨rfl, rfl⟩ := allocated
      exact ⟨_, .global fun t j known =>
        (ConstantExpr.evaluateFrom_of_knows knows known none init).trans value, rfl, rfl⟩
    · rintro ⟨e, creates, rfl, rfl⟩
      cases creates with
      | global value => exact ⟨_, value s i knows, rfl⟩
  | _ => cases defines

/-- Fields with definitions of their own are allocated as the entries that these create. -/
theorem lays_of_allocateFields (same : i.Matches j) (knows : i.Knows s values)
    (own : ∀ decl, .moduleImport decl ∉ fields)
    (allocated : allocateFields imports ctx owner j fields s = .ok i' s') :
    ∃ es, Lays ctx owner values (fields.filterMap Node.definition?) es ∧ s' = s.allocAll es ∧
      (i.pushAll s.size es).Matches i' := by
  induction fields generalizing i j s values with
  | nil =>
    obtain ⟨rfl, rfl⟩ := run_pure_eq_ok_iff.1 allocated
    exact ⟨[], .nil values, rfl, same⟩
  | cons field fields ih =>
    have others : ∀ decl, .moduleImport decl ∉ fields := fun decl inside =>
      own decl (List.mem_cons_of_mem _ inside)
    rw [allocateFields, run_bind_eq_ok_iff] at allocated
    obtain ⟨k, t, here, rest⟩ := allocated
    rw [List.filterMap_cons]
    cases defines : field.definition? with
    | none =>
      obtain ⟨k, kept, added⟩ := allocateField_eq_pure imports ctx owner defines j
      rw [added, run_pure_eq_ok_iff] at here
      obtain ⟨rfl, rfl⟩ := here
      exact ih (same.trans kept) knows others rest
    | some d =>
      have first : ∀ decl, field ≠ .moduleImport decl := fun decl is => own decl (is ▸ List.mem_cons_self)
      obtain ⟨e, creates, rfl, rfl⟩ := (allocateField_eq_ok_iff (same.knows knows) defines first).1 here
      obtain ⟨es, lays, rfl, last⟩ := ih (same.push s.size e.kind) (knows.push e) others rest
      rw [Store.size_alloc] at last
      exact ⟨e :: es, .cons creates lays, rfl, last⟩

/-- Entries that definitions create are allocated for the fields with these. -/
theorem allocateFields_of_lays (same : i.Matches j) (knows : i.Knows s values)
    (own : ∀ decl, .moduleImport decl ∉ fields)
    (lays : Lays ctx owner values (fields.filterMap Node.definition?) es) :
    ∃ j', allocateFields imports ctx owner j fields s = .ok j' (s.allocAll es) ∧
      (i.pushAll s.size es).Matches j' := by
  induction fields generalizing i j s values es with
  | nil =>
    cases lays
    exact ⟨j, rfl, same⟩
  | cons field fields ih =>
    have others : ∀ decl, .moduleImport decl ∉ fields := fun decl inside =>
      own decl (List.mem_cons_of_mem _ inside)
    rw [List.filterMap_cons] at lays
    rw [allocateFields]
    cases defines : field.definition? with
    | none =>
      rw [defines] at lays
      obtain ⟨k, kept, added⟩ := allocateField_eq_pure imports ctx owner defines j
      rw [added, pure_bind]
      exact ih (same.trans kept) knows others lays
    | some d =>
      rw [defines] at lays
      have first : ∀ decl, field ≠ .moduleImport decl := fun decl is => own decl (is ▸ List.mem_cons_self)
      obtain _ | @⟨_, _, e, _, es, creates, rest⟩ := lays
      rw [bind_ok ((allocateField_eq_ok_iff (same.knows knows) defines first).2 ⟨e, creates, rfl, rfl⟩)]
      have last := ih (same.push s.size e.kind) (knows.push e) others rest
      rwa [Store.size_alloc] at last

end Linking

/-! ## Modules -/

/-- What an instance holds stands for itself, and what is allocated next stands for what is allocated next of its
kind. -/
def newRenaming (i : ModuleInstance) (a : Nat) (es es' : List StoreEntry) : Renaming := fun kind b b' =>
  b ∈ i.space kind ∧ b = b' ∨ (b, b') ∈ (addressesOf kind a es).zip (addressesOf kind a es')

section

variable {es' : List StoreEntry} (each : ∀ kind, List.Forall₂ (StoreEntry.Renamed unrelated)
  (es.filter (·.kind == kind)) (es'.filter (·.kind == kind)))
include each

/-- The spaces of the two instances correspond by position. -/
theorem space_newRenaming (s : Store) (i : ModuleInstance) (kind : ExportKind) :
    List.Forall₂ (newRenaming i s.size es es' kind) ((i.pushAll s.size es).space kind)
      ((i.pushAll s.size es').space kind) := by
  rw [ModuleInstance.space_pushAll, ModuleInstance.space_pushAll]
  refine List.rel_append (List.forall₂_same.2 fun b inside => .inl ⟨inside, rfl⟩) ?_
  refine List.forall₂_iff_zip.2 ⟨?_, .inr⟩
  rw [(s.entries_addressesOf es kind).length_eq, (s.entries_addressesOf es' kind).length_eq, (each kind).length_eq]

/-- New addresses that correspond are those of entries that were laid alike. -/
theorem entries_newRenaming (s : Store) {kind : ExportKind} {b b' : Nat}
    (both : (b, b') ∈ (addressesOf kind s.size es).zip (addressesOf kind s.size es')) :
    ∃ e e', (s.allocAll es).get? b = some e ∧ (s.allocAll es').get? b' = some e' ∧ e.kind = kind ∧
      e.Renamed unrelated e' := by
  have here := s.entries_addressesOf es kind
  have there := s.entries_addressesOf es' kind
  have kinds : ∀ e ∈ es.filter (·.kind == kind), e.kind = kind := fun e inside =>
    beq_iff_eq.1 (List.mem_filter.1 inside).2
  have same := each kind
  generalize addressesOf kind s.size es = as at here both
  generalize addressesOf kind s.size es' = bs at there both
  generalize es.filter (·.kind == kind) = fs at here same kinds
  generalize es'.filter (·.kind == kind) = gs at there same
  induction same generalizing as bs with
  | nil =>
    cases here
    cases both
  | cons alike _ ih =>
    obtain _ | ⟨first, others⟩ := here
    obtain _ | ⟨first', others'⟩ := there
    obtain ⟨is, rest⟩ := List.forall_mem_cons.1 kinds
    rcases List.mem_cons.1 both with now | later
    · cases now
      exact ⟨_, _, first, first', is, alike⟩
    · exact ih _ _ later others rest others'

/-- Entries of the same are allocated after the same entries as entries that stand for each other. -/
theorem renamed_allocAll (detached : Detached i s)
    (instances : ∀ n, Found (ModuleInstance.Renamed (newRenaming i s.size es es')) (s.instance? n) (s.instance? n)) :
    (s.allocAll es).Renamed (newRenaming i s.size es es') (s.allocAll es') where
  unique := by
    have before {kind : ExportKind} {b : Nat} (inside : b ∈ i.space kind) : b < s.size := by
      obtain ⟨e, here, -⟩ := detached.held kind b inside
      exact Store.lt_size_of_get? here
    have after {kind : ExportKind} {b b' : Nat}
        (both : (b, b') ∈ (addressesOf kind s.size es).zip (addressesOf kind s.size es')) :
        s.size ≤ b ∧ s.size ≤ b' :=
      (List.of_mem_zip both).imp le_of_mem_addressesOf le_of_mem_addressesOf
    rintro kind b b' c c' (⟨inside, rfl⟩ | both) (⟨inside', rfl⟩ | both')
    · exact Iff.rfl
    · have old := before inside
      have new := after both'
      omega
    · have old := before inside'
      have new := after both
      omega
    · exact zip_injective (nodup_addressesOf ..) (nodup_addressesOf ..) both both'
  entries := by
    rintro kind b b' (⟨inside, rfl⟩ | both)
    · obtain ⟨e, here, is⟩ := detached.held kind b inside
      exact ⟨e, e, Store.get?_allocAll s es here, Store.get?_allocAll s es' here, is,
        detached.entries b e here _⟩
    · obtain ⟨e, e', here, there, is, same⟩ := entries_newRenaming each s both
      exact ⟨e, e', here, there, is, same.mono nofun⟩
  instances n := by
    rw [Store.instance?, Store.instance?, Store.instances_allocAll, Store.instances_allocAll]
    exact instances n

end

namespace Linking

/-- Fields in a row are allocated one after the other. -/
theorem allocateFields_append (imports : ImportObject) (ctx : ModuleContext) (owner : Nat) (i : ModuleInstance)
    (first last : List Node) : allocateFields imports ctx owner i (first ++ last) =
      allocateFields imports ctx owner i first >>= fun i => allocateFields imports ctx owner i last := by
  induction first generalizing i with
  | nil => rfl
  | cons field first ih =>
    rw [List.cons_append, allocateFields, allocateFields, bind_assoc]
    exact congrArg _ (funext ih)

/-- A detached instance knows values of its globals. -/
theorem exists_knows_of_detached (now : Detached i s) : ∃ values, i.Knows s values := by
  have held := now.held .global
  unfold ModuleInstance.Knows
  change ∀ a ∈ i.globals, _ at held
  generalize i.globals = as at held
  induction as with
  | nil => exact ⟨[], .nil⟩
  | cons a as ih =>
    obtain ⟨⟨e, here, kind⟩, rest⟩ := List.forall_mem_cons.1 held
    obtain ⟨values, each⟩ := ih rest
    cases e <;> cases kind
    next g => exact ⟨g.value :: values, .cons ⟨g, Store.global_eq_ok.2 here, rfl⟩ each⟩

/-- A module that says the same is allocated as an instance of the same, in a store without addresses whose
instances have nothing yet. -/
theorem allocateFields_of_restates {m m' : Module} (restates : m.Restates m')
    (inOrder : Typing.lateImports false m.fields = []) (detached : imports.Detached) (now : Detached .empty s)
    (blank : ∀ n i, s.instance? n = .ok i → i = .empty)
    (allocated : allocateFields imports (.ofModule m) owner .empty m.fields s = .ok i s') :
    ∃ ρ j t, allocateFields imports (.ofModule m') owner .empty m'.fields s = .ok j t ∧
      i.Renamed ρ j ∧ s'.Renamed ρ t := by
  obtain ⟨first, last, fields, only, own, defined⟩ := exists_split m.id m.metadata inOrder
  obtain ⟨first', last', fields', only', own', defined'⟩ := exists_split m'.id m'.metadata restates.inOrder
  rw [fields, allocateFields_append, run_bind_eq_ok_iff] at allocated
  obtain ⟨i₀, s₀, imported, allocated⟩ := allocated
  -- The imports are brought in alike.
  have mirrors : Mirrors Eq ModuleInstance.Matches (allocateFields imports (.ofModule m) owner .empty first)
      ((Fields.ofModule m').imports.foldlM (resolveImport imports (.ofModule m')) .empty) :=
    mirrors_allocateFields only restates.imports (.refl .empty)
  have selves : List.Forall₂ Binary.ImportReads (Fields.ofModule m').imports (Fields.ofModule m').imports :=
    List.forall₂_same.2 fun decl inside => by
      obtain ⟨_, -, reads⟩ := exists_of_forall₂ restates.imports inside
      exact reads.self
  have mirrors' : Mirrors Eq ModuleInstance.Matches (allocateFields imports (.ofModule m') owner .empty first')
      ((Fields.ofModule m').imports.foldlM (resolveImport imports (.ofModule m')) .empty) :=
    mirrors_allocateFields only' selves (.refl .empty)
  obtain ⟨k, _, brought, same, rfl⟩ := mirrors.exists_ok rfl imported
  obtain ⟨j₀, _, imported', same', rfl⟩ := mirrors'.symm.exists_ok rfl brought
  obtain ⟨held, instances, exports⟩ := detached_resolveImports detached now brought
  obtain ⟨values, knows⟩ := exists_knows_of_detached held
  -- The definitions are allocated as entries that stand for each other.
  obtain ⟨es, lays, rfl, matches_⟩ := lays_of_allocateFields same.symm knows own allocated
  have alike (kind : ExportKind) : List.Forall₂ Definition.Alike (definitionsOf kind last)
      (definitionsOf kind last') := by
    rw [defined, defined']
    exact restates.defined kind
  obtain ⟨es', lays', each⟩ := lays.regroup alike (.ofModule m')
  obtain ⟨j, allocated', matches'⟩ := allocateFields_of_lays same'.symm knows own' lays'
  refine ⟨newRenaming k _ es es', j, _, ?_, ⟨fun kind => ?_, ?_⟩, renamed_allocAll each held fun n => ?_⟩
  · rw [fields', allocateFields_append, bind_ok imported', allocated']
  · rw [matches_.space, matches'.space]
    exact space_newRenaming each _ k kind
  · rw [matches_.exports, matches'.exports, ModuleInstance.exports_pushAll, ModuleInstance.exports_pushAll, exports]
    exact .nil
  · rw [Store.instance?, instances, ← Store.instance?]
    cases there : s.instance? n with
    | error e => exact .error e
    | ok i =>
      obtain rfl := blank n i there
      exact .ok ⟨fun kind => by cases kind <;> exact .nil, .nil⟩

end Linking

end WasmEngine
