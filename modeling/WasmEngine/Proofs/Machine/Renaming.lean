import WasmEngine.Proofs.Machine.StoreExtension
import WasmEngine.Proofs.Outcome
import WasmEngine.Proofs.Syntax.Alike

/-!
# Stores with other addresses

Two stores may hold the same at different addresses: a renaming tells which address of the one stands for which
address of the other.  Operations at addresses that stand for each other keep it so.
-/

namespace WasmEngine

open Node Outcome

/-- Which addresses of a kind stand for each other. -/
abbrev Renaming := ExportKind → Nat → Nat → Prop

/-- The addresses of a kind. -/
def ModuleInstance.space (i : ModuleInstance) : ExportKind → List Nat
  | .func => i.funcs
  | .table => i.tables
  | .memory => i.mems
  | .global => i.globals

/-! ## Functions, entries and instances -/

/-- Functions do the same: they are the same one of the embedding, or run code that does the same on behalf of
the same instance. -/
inductive FuncCode.Alike : FuncCode → FuncCode → Prop
  | host (handle : Nat) : Alike (.host handle) (.host handle)
  | wasm {f f' : Func} (owner : Nat) (locals : f'.locals.map Param.valtype = f.locals.map Param.valtype)
    (body : AlikeIn f.body f'.body) : Alike (.wasm f owner) (.wasm f' owner)

/-- Functions of one type that do the same. -/
structure FuncInstance.Alike (f f' : FuncInstance) : Prop where
  type : f'.type = f.type
  code : f.code.Alike f'.code

/-- Entries are the same up to the addresses in the slots of tables. -/
inductive StoreEntry.Renamed (ρ : Nat → Nat → Prop) : StoreEntry → StoreEntry → Prop
  | func {f f' : FuncInstance} (alike : f.Alike f') : Renamed ρ (.func f) (.func f')
  | global (g : GlobalInstance) : Renamed ρ (.global g) (.global g)
  | memory (m : Memory) : Renamed ρ (.memory m) (.memory m)
  | table {t t' : Table} (limits : t'.limits = t.limits)
    (slots : List.Forall₂ (Option.Rel ρ) t.slots t'.slots) : Renamed ρ (.table t) (.table t')

/-- Renamed entries are of one kind. -/
theorem StoreEntry.Renamed.kind_eq {ρ : Nat → Nat → Prop} {e e' : StoreEntry} (same : e.Renamed ρ e') :
    e'.kind = e.kind := by
  cases same <;> rfl

/-- Entries renamed by a relation are renamed by every larger one. -/
theorem StoreEntry.Renamed.mono {ρ τ : Nat → Nat → Prop} {e e' : StoreEntry} (same : e.Renamed ρ e')
    (more : ∀ {a b}, ρ a b → τ a b) : e.Renamed τ e' := by
  cases same with
  | func alike => exact .func alike
  | global g => exact .global g
  | memory m => exact .memory m
  | table limits slots =>
    refine .table limits (slots.imp fun _ _ slot => ?_)
    cases slot with
    | none => exact .none
    | some related => exact .some (more related)

/-- Exports of one name and kind with addresses that stand for each other. -/
structure ExportInstance.Renamed (ρ : Renaming) (e e' : ExportInstance) : Prop where
  name : e'.name = e.name
  kind : e'.value.kind = e.value.kind
  address : ρ e.value.kind e.value.address e'.value.address

/-- Instances with addresses that stand for each other. -/
structure ModuleInstance.Renamed (ρ : Renaming) (i i' : ModuleInstance) : Prop where
  space : ∀ kind, List.Forall₂ (ρ kind) (i.space kind) (i'.space kind)
  exports : List.Forall₂ (ExportInstance.Renamed ρ) i.exports i'.exports

/-- What was found is related, or nothing was for the same reason. -/
inductive Found {α β : Type} (V : α → β → Prop) : Except Fault α → Except Fault β → Prop
  | ok {a : α} {b : β} (value : V a b) : Found V (.ok a) (.ok b)
  | error (e : Fault) : Found V (.error e) (.error e)

theorem found_rfl {α : Type} (r : Except Fault α) : Found Eq r r := by
  cases r with
  | ok a => exact .ok rfl
  | error e => exact .error e

/-- Lookups in sequence find related things when their parts do. -/
theorem Found.bind {α β γ δ : Type} {V : α → β → Prop} {W : γ → δ → Prop} {r : Except Fault α}
    {r' : Except Fault β} {f : α → Except Fault γ} {f' : β → Except Fault δ} (found : Found V r r')
    (rest : ∀ a b, V a b → Found W (f a) (f' b)) : Found W (r >>= f) (r' >>= f') := by
  cases found with
  | ok value => exact rest _ _ value
  | error e => exact .error e

namespace ModuleInstance.Renamed

variable {ρ : Renaming} {i i' : ModuleInstance} (renamed : i.Renamed ρ i')
include renamed

/-- The first entries of the index spaces are related. -/
theorem first (kind : ExportKind) : Option.Rel (ρ kind) (i.space kind).head? (i'.space kind).head? := by
  rw [List.head?_eq_getElem?, List.head?_eq_getElem?]
  exact rel_getElem? (renamed.space kind) 0

theorem func (n : Nat) : Found (ρ .func) (i.func n) (i'.func n) := by
  have at_ : Option.Rel (ρ .func) i.funcs[n]? i'.funcs[n]? := rel_getElem? (renamed.space .func) n
  unfold ModuleInstance.func
  generalize i.funcs[n]? = a at at_
  generalize i'.funcs[n]? = b at at_
  cases at_ with
  | some related => exact .ok related
  | none => exact .error _

theorem global (n : Nat) : Found (ρ .global) (i.global n) (i'.global n) := by
  have at_ : Option.Rel (ρ .global) i.globals[n]? i'.globals[n]? := rel_getElem? (renamed.space .global) n
  unfold ModuleInstance.global
  generalize i.globals[n]? = a at at_
  generalize i'.globals[n]? = b at at_
  cases at_ with
  | some related => exact .ok related
  | none => exact .error _

theorem memory : Found (ρ .memory) i.memory i'.memory := by
  have at_ : Option.Rel (ρ .memory) i.mems.head? i'.mems.head? := renamed.first .memory
  unfold ModuleInstance.memory
  generalize i.mems.head? = a at at_
  generalize i'.mems.head? = b at at_
  cases at_ with
  | some related => exact .ok related
  | none => exact .error _

theorem table : Found (ρ .table) i.table i'.table := by
  have at_ : Option.Rel (ρ .table) i.tables.head? i'.tables.head? := renamed.first .table
  unfold ModuleInstance.table
  generalize i.tables.head? = a at at_
  generalize i'.tables.head? = b at at_
  cases at_ with
  | some related => exact .ok related
  | none => exact .error _

end ModuleInstance.Renamed

/-! ## Tables -/

namespace Table

variable {ρ : Nat → Nat → Prop} {t t' : Table}

/-- Tables with related slots give related functions, and fail alike. -/
theorem get_renamed (slots : List.Forall₂ (Option.Rel ρ) t.slots t'.slots) (n : Nat) :
    Found ρ (t.get n) (t'.get n) := by
  have slot := rel_getElem? slots n
  unfold Table.get
  generalize t.slots[n]? = a at slot
  generalize t'.slots[n]? = b at slot
  cases slot with
  | none => exact .error _
  | some inside =>
    cases inside with
    | none => exact .error _
    | some related => exact .ok related

/-- Slots are filled alike with addresses that stand for each other. -/
theorem fill_renamed (limits : t'.limits = t.limits) (slots : List.Forall₂ (Option.Rel ρ) t.slots t'.slots)
    (offset : Nat) {as bs : List Nat} (funcs : List.Forall₂ ρ as bs) :
    Found (fun u u' => u'.limits = u.limits ∧ List.Forall₂ (Option.Rel ρ) u.slots u'.slots)
      (t.fill offset as) (t'.fill offset bs) := by
  have size : t'.size = t.size := slots.length_eq.symm
  unfold Table.fill
  rw [size, ← funcs.length_eq]
  split_ifs
  · refine .ok ⟨limits, ?_⟩
    refine List.rel_append (List.rel_append (List.forall₂_take _ slots) ?_) (List.forall₂_drop _ slots)
    rw [List.forall₂_map_left_iff, List.forall₂_map_right_iff]
    exact funcs.imp fun _ _ related => .some related
  · exact .error _

end Table

/-! ## Stores -/

/-- A store holds at the addresses of a renaming what another one holds at those that stand for them. -/
structure Store.Renamed (ρ : Renaming) (s s' : Store) : Prop where
  unique : ∀ {kind a a' b b'}, ρ kind a a' → ρ kind b b' → (a = b ↔ a' = b')
  entries : ∀ {kind a a'}, ρ kind a a' →
    ∃ e e', s.get? a = some e ∧ s'.get? a' = some e' ∧ e.kind = kind ∧ e.Renamed (ρ .func) e'
  instances : ∀ owner, Found (ModuleInstance.Renamed ρ) (s.instance? owner) (s'.instance? owner)

namespace Store.Renamed

variable {ρ : Renaming} {s s' : Store} (renamed : s.Renamed ρ s') {a a' : Nat}
include renamed

theorem func (related : ρ .func a a') : ∃ f f', s.func a = .ok f ∧ s'.func a' = .ok f' ∧ f.Alike f' := by
  obtain ⟨e, e', here, there, kind, same⟩ := renamed.entries related
  cases same <;> cases kind
  next alike => exact ⟨_, _, func_eq_ok.2 here, func_eq_ok.2 there, alike⟩

theorem global (related : ρ .global a a') : ∃ g, s.global a = .ok g ∧ s'.global a' = .ok g := by
  obtain ⟨e, e', here, there, kind, same⟩ := renamed.entries related
  cases same <;> cases kind
  exact ⟨_, global_eq_ok.2 here, global_eq_ok.2 there⟩

theorem memory (related : ρ .memory a a') : ∃ m, s.memory a = .ok m ∧ s'.memory a' = .ok m := by
  obtain ⟨e, e', here, there, kind, same⟩ := renamed.entries related
  cases same <;> cases kind
  exact ⟨_, memory_eq_ok.2 here, memory_eq_ok.2 there⟩

theorem table (related : ρ .table a a') : ∃ t t', s.table a = .ok t ∧ s'.table a' = .ok t' ∧
    t'.limits = t.limits ∧ List.Forall₂ (Option.Rel (ρ .func)) t.slots t'.slots := by
  obtain ⟨e, e', here, there, kind, same⟩ := renamed.entries related
  cases same <;> cases kind
  next limits slots => exact ⟨_, _, table_eq_ok.2 here, table_eq_ok.2 there, limits, slots⟩

/-- Entries of the kind that was there are put at addresses that stand for each other. -/
theorem put {kind : ExportKind} (related : ρ kind a a') {e e' : StoreEntry} (stays : e.kind = kind)
    (same : e.Renamed (ρ .func) e') : (s.put a e).Renamed ρ (s'.put a' e') where
  unique := renamed.unique
  entries := by
    intro other b b' there
    obtain ⟨f, f', here, here', was, kept⟩ := renamed.entries related
    obtain ⟨g, g', found, found', is, held⟩ := renamed.entries there
    rw [get?_put (lt_size_of_get? here), get?_put (lt_size_of_get? here')]
    by_cases at_ : b = a
    · subst at_
      obtain rfl := Option.some.inj (here.symm.trans found)
      obtain rfl : kind = other := was.symm.trans is
      obtain rfl := (renamed.unique there related).1 rfl
      exact ⟨e, e', if_pos rfl, if_pos rfl, stays, same⟩
    · refine ⟨g, g', (if_neg at_).trans found, (if_neg fun at' => ?_).trans found', is, held⟩
      -- Entries that stand for each other are of one kind, so that no address stands for two.
      obtain rfl : kind = other := by
        subst at'
        obtain rfl := Option.some.inj (here'.symm.trans found')
        rw [← was, ← is, ← kept.kind_eq, ← held.kind_eq]
      exact at_ ((renamed.unique there related).2 at')
  instances := renamed.instances

/-- Instances with addresses that stand for each other are put in the same place. -/
theorem setInstance (owner : Nat) {i i' : ModuleInstance} (instances : i.Renamed ρ i') :
    (s.setInstance owner i).Renamed ρ (s'.setInstance owner i') where
  unique := renamed.unique
  entries := renamed.entries
  instances other := by
    have before := renamed.instances other
    unfold Store.instance? Store.setInstance at *
    by_cases same : owner = other
    · subst same
      rw [Array.getElem?_setIfInBounds_self, Array.getElem?_setIfInBounds_self]
      by_cases known : owner < s.instances.size <;> by_cases known' : owner < s'.instances.size <;>
        simp only [known, known', if_true, if_false, Array.getElem?_eq_getElem, Array.getElem?_eq_none,
          not_lt.1, not_false_eq_true] at before ⊢
      · exact .ok instances
      · cases before
      · cases before
      · exact .error _
    · rwa [Array.getElem?_setIfInBounds_ne same, Array.getElem?_setIfInBounds_ne same]

end Store.Renamed

/-! ## Operations -/

namespace Store

variable {ρ : Renaming} {a a' : Nat}

theorem mirrors_assign (related : ρ .global a a') (v : Value) :
    Mirrors (Renamed ρ) Eq (assign a v) (assign a' v) := by
  intro s s' renamed
  obtain ⟨g, here, there⟩ := renamed.global related
  simp only [assign_eq, here, there]
  split_ifs
  · exact .error renamed
  · exact .ok rfl (renamed.put related rfl (.global _))

theorem mirrors_growMemory (related : ρ .memory a a') (delta : Nat) :
    Mirrors (Renamed ρ) Eq (growMemory a delta) (growMemory a' delta) := by
  intro s s' renamed
  obtain ⟨m, here, there⟩ := renamed.memory related
  simp only [growMemory_eq, here, there]
  exact .ok rfl (renamed.put related rfl (.memory _))

theorem mirrors_writeMemory (related : ρ .memory a a') (position : Nat) (bytes : List UInt8) :
    Mirrors (Renamed ρ) Eq (writeMemory a position bytes) (writeMemory a' position bytes) := by
  intro s s' renamed
  obtain ⟨m, here, there⟩ := renamed.memory related
  simp only [writeMemory_eq, here, there]
  split_ifs
  · exact .ok rfl (renamed.put related rfl (.memory _))
  · exact .error renamed

theorem mirrors_fillTable (related : ρ .table a a') (offset : Nat) {as bs : List Nat}
    (funcs : List.Forall₂ (ρ .func) as bs) :
    Mirrors (Renamed ρ) Eq (fillTable a offset as) (fillTable a' offset bs) := by
  intro s s' renamed
  obtain ⟨t, t', here, there, limits, slots⟩ := renamed.table related
  have filled := Table.fill_renamed limits slots offset funcs
  simp only [fillTable_eq, here, there]
  generalize t.fill offset as = r at filled
  generalize t'.fill offset bs = r' at filled
  cases filled with
  | ok value => exact .ok rfl (renamed.put related rfl (.table value.1 value.2))
  | error e => exact .error renamed

end Store

end WasmEngine
