import WasmEngine.Machine.Store
import WasmEngine.Proofs.Embedding.Allocation
import WasmEngine.Proofs.Machine.Renaming
import WasmEngine.Proofs.Typing.AlikeModules

/-!
# The entries of definitions

The value of a constant expression depends on the values of the globals alone (`evaluate_alike`), so a definition
is allocated as an entry that depends on the values of the globals before it.  Definitions of the same, kind by
kind in the same order, are allocated as entries of the same (`Lays.regroup`).
-/

namespace WasmEngine

open Node

/-- The globals of an instance have some values. -/
def ModuleInstance.Knows (i : ModuleInstance) (s : Store) (values : List Value) : Prop :=
  List.Forall₂ (fun a v => ∃ g, s.global a = .ok g ∧ g.value = v) i.globals values

namespace ConstantExpr

variable {s t : Store} {i j : ModuleInstance} {values : List Value} {init init' : List Node}

/-- Instances that know the same globals read the same values. -/
theorem global_of_knows (knows : i.Knows s values) (knows' : j.Knows t values) (n : Nat) {α : Type}
    (f : Value → Except Fault α) : (do let a ← j.global n; let g ← t.global a; f g.value) =
      (do let a ← i.global n; let g ← s.global a; f g.value) := by
  have first := rel_getElem? knows n
  have second := rel_getElem? knows' n
  simp only [ModuleInstance.global]
  generalize i.globals[n]? = a at first ⊢
  generalize j.globals[n]? = b at second ⊢
  generalize values[n]? = v at first second
  cases first with
  | none =>
    cases second
    rfl
  | some here =>
    cases second with
    | some there =>
      obtain ⟨g, found, rfl⟩ := here
      obtain ⟨g', found', same⟩ := there
      simp only [bind, Except.bind, found, found', same]

/-- Constant expressions have the same value in instances that know the same globals. -/
theorem evaluateFrom_of_knows (knows : i.Knows s values) (knows' : j.Knows t values) (result : Option Value)
    (init : List Node) : evaluateFrom t j result init = evaluateFrom s i result init := by
  induction init generalizing result with
  | nil => rfl
  | cons node rest ih =>
    cases node with
    | instr id object args memArg =>
      unfold evaluateFrom
      split
      · simp only [ih]
      · simp only [ih]
        exact global_of_knows knows knows' _ fun v => evaluateFrom s i (some v) rest
      · rfl
      · exact ih result
      · rfl
    | _ => rfl

/-- Constant expressions that are alike have the same value. -/
theorem evaluateFrom_alike (alike : AlikeIn init init') (result : Option Value) :
    evaluateFrom s i result init' = evaluateFrom s i result init := by
  induction init generalizing init' result with
  | nil =>
    cases alike
    rfl
  | cons node rest ih =>
    obtain _ | ⟨first, others⟩ := alike
    cases first with
    | instr id object args memArg =>
      unfold evaluateFrom
      rw [head?_respelledIn]
      simp only [ih others]
      cases args.head? with
      | none => rfl
      | some literal =>
        have spelled (u : Valtype) := Value.ofLiteral_respelled u literal
        rw [Option.map_some]
        split
        · next here =>
          cases here
          simp only [spelled]
        · next here =>
          cases literal <;> cases here
          rfl
        · next here =>
          cases literal <;> cases here
          rfl
        · rfl
        · next last constant global name =>
          split
          · exact (constant _ _ rfl rfl rfl).elim
          · next here =>
            cases here
            exact (global _ rfl rfl rfl).elim
          · next here =>
            cases here
            exact (name _ rfl rfl rfl).elim
          · exact (last rfl rfl).elim
          · rfl
    | _ => rfl

/-- Neither the addresses of the globals nor the spelling of literals matters. -/
theorem evaluate_alike (knows : i.Knows s values) (knows' : j.Knows t values) (alike : AlikeIn init init') :
    evaluate t j init' = evaluate s i init :=
  (evaluateFrom_alike alike none).trans (evaluateFrom_of_knows knows knows' none init)

/-- Offsets that are alike are the same in instances that know the same globals. -/
theorem offset_alike (knows : i.Knows s values) (knows' : j.Knows t values) (alike : AlikeIn init init') :
    offset t j init' = offset s i init := by
  rw [offset, offset, evaluate_alike knows knows' alike]

end ConstantExpr

/-- Globals that stand for each other have the same values. -/
theorem exists_knows {ρ : Renaming} {s t : Store} {i j : ModuleInstance} (stores : s.Renamed ρ t)
    (instances : i.Renamed ρ j) : ∃ values, i.Knows s values ∧ j.Knows t values := by
  have each : List.Forall₂ (ρ .global) i.globals j.globals := instances.space .global
  unfold ModuleInstance.Knows
  generalize i.globals = as at each ⊢
  generalize j.globals = bs at each ⊢
  induction each with
  | nil => exact ⟨[], .nil, .nil⟩
  | cons related _ ih =>
    obtain ⟨values, here, there⟩ := ih
    obtain ⟨g, found, found'⟩ := stores.global related
    exact ⟨g.value :: values, .cons ⟨g, found, rfl⟩ here, .cons ⟨g, found', rfl⟩ there⟩

/-! ## Definitions -/

/-- Nothing stands for anything. -/
abbrev unrelated : Nat → Nat → Prop := fun _ _ => False

/-- The value of an entry that is a global. -/
def StoreEntry.value? : StoreEntry → Option Value
  | .global g => some g.value
  | _ => none

/-- What a definition of a module is allocated as after globals of some values. -/
inductive Definition.Creates (ctx : ModuleContext) (owner : Nat) (values : List Value) :
    Definition → StoreEntry → Prop
  | func (f : Func) : Creates ctx owner values (.func f) (.func ⟨ctx.funcType f.signature, .wasm f owner⟩)
  | table (t : TableDef) : Creates ctx owner values (.table t) (.table (.create t.limits))
  | memory {d : MemoryDef} {m : Memory} (created : Memory.create d.limits = .ok m) :
    Creates ctx owner values (.memory d) (.memory m)
  | global {type : GlobalType} {init : List Node} {v : Option Value}
    (value : ∀ s i, ModuleInstance.Knows i s values → ConstantExpr.evaluate s i init = .ok v) :
    Creates ctx owner values (.global type init) (.global ⟨type.valtype, type.mutability,
      v.elim (Value.default type.valtype) (Value.cast type.valtype)⟩)

/-- What definitions are allocated as one after the other, after globals of some values. -/
inductive Lays (ctx : ModuleContext) (owner : Nat) : List Value → List Definition → List StoreEntry → Prop
  | nil (values : List Value) : Lays ctx owner values [] []
  | cons {values : List Value} {d : Definition} {e : StoreEntry} {ds : List Definition} {es : List StoreEntry}
    (first : d.Creates ctx owner values e) (rest : Lays ctx owner (values ++ e.value?.toList) ds es) :
    Lays ctx owner values (d :: ds) (e :: es)

variable {ctx : ModuleContext} {owner : Nat} {values values' : List Value} {d d' : Definition}
  {e : StoreEntry} {ds ds' : List Definition} {es : List StoreEntry}

theorem Definition.Creates.kind_eq (creates : d.Creates ctx owner values e) : e.kind = d.kind := by
  cases creates <;> rfl

/-- Only globals have a value. -/
theorem StoreEntry.value?_eq_none (other : e.kind ≠ .global) : e.value? = none := by
  cases e <;> first | rfl | exact absurd rfl other

/-- Only globals depend on the globals before them. -/
theorem Definition.Creates.other (creates : d.Creates ctx owner values e) (other : d.kind ≠ .global) :
    d.Creates ctx owner values' e := by
  cases creates with
  | func f => exact .func f
  | table t => exact .table t
  | memory created => exact .memory created
  | global => exact absurd rfl other

/-- Definitions of the same create the same. -/
theorem Definition.Creates.alike (creates : d.Creates ctx owner values e) (same : d.Alike d')
    (ctx' : ModuleContext) :
    ∃ e', d'.Creates ctx' owner values e' ∧ e.Renamed unrelated e' := by
  cases creates with
  | func f =>
    cases same with
    | func alike =>
      obtain ⟨s, s', here, there, type⟩ := alike.signature
      refine ⟨_, .func _, .func ⟨?_, .wasm owner alike.locals alike.body⟩⟩
      rw [here, there]
      exact type
  | table t =>
    cases same with
    | table limits =>
      refine ⟨_, .table _, .table ?_ ?_⟩
      · exact limits
      · rw [Table.create, Table.create, limits]
        exact List.forall₂_same.2 fun slot inside => List.eq_of_mem_replicate inside ▸ .none
  | memory created =>
    cases same with
    | memory limits => exact ⟨_, .memory (limits ▸ created), .memory _⟩
  | global value =>
    cases same with
    | global type alike =>
      exact ⟨_, .global fun s i knows => (ConstantExpr.evaluate_alike knows knows alike).trans (value s i knows),
        .global _⟩

namespace Lays

/-- Without globals the values do not matter. -/
theorem other (lays : Lays ctx owner values ds es) (others : ∀ d ∈ ds, d.kind ≠ .global) :
    Lays ctx owner values' ds es := by
  induction lays generalizing values' with
  | nil => exact .nil values'
  | cons first _ ih =>
    obtain ⟨here, rest⟩ := List.forall_mem_cons.1 others
    exact .cons (first.other here) (ih rest)

/-- An entry before does not matter to definitions of another kind. -/
theorem skip_iff {kind : ExportKind} (kinds : ∀ d ∈ ds, d.kind = kind) (ne : e.kind ≠ kind) :
    Lays ctx owner (values ++ e.value?.toList) ds es ↔ Lays ctx owner values ds es := by
  by_cases isGlobal : e.kind = .global
  · have others : ∀ d ∈ ds, d.kind ≠ .global := fun d inside same =>
      ne (isGlobal.trans (same.symm.trans (kinds d inside)))
    exact ⟨fun lays => lays.other others, fun lays => lays.other others⟩
  · rw [StoreEntry.value?_eq_none isGlobal, Option.toList_none, List.append_nil]

/-- Definitions that were picked for a kind have it. -/
theorem kinds_filter (kind : ExportKind) : ∀ d ∈ ds.filter (·.kind == kind), d.kind = kind := fun _ inside =>
  beq_iff_eq.1 (List.mem_filter.1 inside).2

/-- The entries of one kind are those of the definitions of that kind. -/
theorem filter (lays : Lays ctx owner values ds es) (kind : ExportKind) :
    Lays ctx owner values (ds.filter (·.kind == kind)) (es.filter (·.kind == kind)) := by
  induction lays with
  | nil values => exact .nil values
  | @cons values d e ds es first _ ih =>
    rw [List.filter_cons, List.filter_cons, first.kind_eq]
    split_ifs with same
    · exact .cons first ih
    · exact (skip_iff (kinds_filter kind) fun here => same (beq_iff_eq.2 (first.kind_eq ▸ here))).1 ih

/-- The entries of each kind make up those of all definitions. -/
theorem exists_of_filter {entries : ExportKind → List StoreEntry}
    (each : ∀ kind, Lays ctx owner values (ds.filter (·.kind == kind)) (entries kind)) :
    ∃ es, Lays ctx owner values ds es ∧ ∀ kind, es.filter (·.kind == kind) = entries kind := by
  induction ds generalizing values entries with
  | nil =>
    refine ⟨[], .nil values, fun kind => ?_⟩
    have nothing := each kind
    generalize entries kind = es at nothing
    cases nothing
    rfl
  | cons d ds ih =>
    have first := each d.kind
    rw [List.filter_cons_of_pos (by simp)] at first
    generalize here : entries d.kind = es at first
    obtain _ | @⟨_, _, e, _, es, creates, rest⟩ := first
    have later (kind : ExportKind) : Lays ctx owner (values ++ e.value?.toList)
        (ds.filter (·.kind == kind)) (if kind = d.kind then es else entries kind) := by
      split_ifs with same
      · exact same ▸ rest
      · have others := each kind
        rw [List.filter_cons_of_neg (by simpa using Ne.symm same)] at others
        exact (skip_iff (kinds_filter kind) (creates.kind_eq ▸ Ne.symm same)).2 others
    obtain ⟨es', lays, kinds⟩ := ih later
    refine ⟨e :: es', .cons creates lays, fun kind => ?_⟩
    rw [List.filter_cons, creates.kind_eq, kinds]
    by_cases same : kind = d.kind
    · subst same
      simp [here]
    · simp [same, Ne.symm same]

/-- Definitions that are alike create entries that are alike. -/
theorem alike (lays : Lays ctx owner values ds es) (same : List.Forall₂ Definition.Alike ds ds')
    (ctx' : ModuleContext) :
    ∃ es', Lays ctx' owner values ds' es' ∧ List.Forall₂ (StoreEntry.Renamed unrelated) es es' := by
  induction lays generalizing ds' with
  | nil values =>
    cases same
    exact ⟨[], .nil values, .nil⟩
  | @cons _ _ e _ _ first _ ih =>
    obtain _ | ⟨here, others⟩ := same
    obtain ⟨e', creates, renamed⟩ := first.alike here ctx'
    obtain ⟨es', lays, rest⟩ := ih others
    have value : e'.value? = e.value? := by
      cases renamed <;> rfl
    exact ⟨e' :: es', .cons creates (value ▸ lays), .cons renamed rest⟩

/-- Definitions of the same, in the same order for each kind, are allocated as entries of the same. -/
theorem regroup (lays : Lays ctx owner values ds es) (each : ∀ kind,
      List.Forall₂ Definition.Alike (ds.filter (·.kind == kind)) (ds'.filter (·.kind == kind))) (ctx' : ModuleContext) :
    ∃ es', Lays ctx' owner values ds' es' ∧ ∀ kind, List.Forall₂ (StoreEntry.Renamed unrelated)
      (es.filter (·.kind == kind)) (es'.filter (·.kind == kind)) := by
  choose entries laid renamed using fun kind => (lays.filter kind).alike (each kind) ctx'
  obtain ⟨es', all, kinds⟩ := exists_of_filter laid
  exact ⟨es', all, fun kind => kinds kind ▸ renamed kind⟩

end Lays

end WasmEngine
