import Mathlib
import WasmEngine.Proofs.Embedding.Instantiable
import WasmEngine.Proofs.Machine.Operators
import WasmEngine.Proofs.Syntax.Equality
import WasmEngine.Wat.Parse

/-!
# Initial values of globals

A global is allocated with the value of its initialiser, which may read globals.  Validation checks the initialisers
against all globals of a module, but when a global is reached only those before it have addresses.  The initialiser
of a global of a valid module gives a value, of the type of the global, just if it reads only globals before this
one and its constants have literals (`Program.initialises_iff_of_compile`).
-/

namespace WasmEngine

open Node Outcome Typing

/-! ## Globals with values of their types -/

/-- Every global has a value of its type. -/
def Store.GlobalsTyped (s : Store) : Prop := ∀ a g, s.global a = .ok g → g.value.type = g.valtype

theorem Store.globalsTyped_empty : Store.empty.GlobalsTyped := by
  intro a g here
  have entry := Store.global_eq_ok.1 here
  simp [Store.get?, Store.empty] at entry

/-- Entries that stay keep the types of their values, and new entries have values of their types. -/
theorem Store.GlobalsTyped.extend {s s' : Store} {n : Nat} {addresses : List Nat} (typed : s.GlobalsTyped)
    (ext : s.Extends n addresses s') : s'.GlobalsTyped := by
  intro a g here
  have entry := Store.global_eq_ok.1 here
  by_cases new : s.size ≤ a
  · exact ext.typed a _ new entry
  · cases found : s.get? a with
    | none =>
      rw [ext.freed a (Nat.lt_of_not_le new) found] at entry
      cases entry
    | some e =>
      obtain ⟨e', here', keeps⟩ := ext.entries a e found
      obtain rfl := Option.some.inj (here'.symm.trans entry)
      refine keeps.hasType ?_
      cases keeps with
      | global => exact typed a _ (Store.global_eq_ok.2 found)

/-! ## Declarations of the first fields -/

/-- Adding fields to a context only adds globals at the end. -/
theorem ModuleContext.exists_globals_foldl (fields : List Node) (ctx : ModuleContext) :
    ∃ more, (fields.foldl addField ctx).globals = ctx.globals ++ more := by
  induction fields generalizing ctx with
  | nil => exact ⟨[], (List.append_nil _).symm⟩
  | cons field fields ih =>
    obtain ⟨more, later⟩ := ih (ctx.addField field)
    have adds : ∃ here, (ctx.addField field).globals = ctx.globals ++ here := by
      cases field with
      | global type => exact ⟨[type], rfl⟩
      | moduleImport decl =>
        obtain ⟨exporter, name, descr, id⟩ := decl
        cases descr with
        | global type => exact ⟨[type], rfl⟩
        | _ => exact ⟨[], (List.append_nil _).symm⟩
      | _ => exact ⟨[], (List.append_nil _).symm⟩
    obtain ⟨here, first⟩ := adds
    exact ⟨here ++ more, by rw [List.foldl_cons, later, first, List.append_assoc]⟩

/-! ## Initialisers -/

/-- The initialiser of a global gives a value of the type of the global. -/
def Linking.Initialises (s : Store) (i : ModuleInstance) (type : GlobalType) (init : List Node) : Prop :=
  ∃ v, ConstantExpr.evaluate s i init = .ok (some v) ∧ v.type = type.valtype

/-- The constants of an initialiser have literals, and the globals that it reads are among the first ones. -/
structure ReadsAmong (count : Nat) (init : List Node) : Prop where
  literals : ∀ node ∈ init, node.HasLiteral
  earlier : ∀ node ∈ init, ∀ n, node.Reads (.number n) → n.toU32 < count

theorem readsAmong_nil (count : Nat) : ReadsAmong count [] := ⟨nofun, nofun⟩

/-- Reading among so many globals is said of each instruction. -/
theorem readsAmong_cons {count : Nat} {node : Node} {init : List Node} :
    ReadsAmong count (node :: init) ↔
      (node.HasLiteral ∧ ∀ n, node.Reads (.number n) → n.toU32 < count) ∧ ReadsAmong count init := by
  constructor
  · intro ⟨literals, earlier⟩
    exact ⟨⟨literals _ List.mem_cons_self, earlier _ List.mem_cons_self⟩,
      fun other inside => literals other (List.mem_cons_of_mem _ inside),
      fun other inside => earlier other (List.mem_cons_of_mem _ inside)⟩
  · intro ⟨⟨literal, here⟩, ⟨literals, earlier⟩⟩
    exact ⟨List.forall_mem_cons.2 ⟨literal, literals⟩, List.forall_mem_cons.2 ⟨here, earlier⟩⟩

/-- Among plain instructions, only those that get a global read one: the one that they name first. -/
theorem Node.instr_of_reads {name : String} {object : Option Valtype} {args : List Node} {memArg : Option MemArg}
    {index : Index} (reads : Node.Reads (.instr name object args memArg) index) :
    name = "get_global" ∧ object = none ∧ args.head? = some (ofIndex index) := by
  cases reads
  exact ⟨rfl, rfl, rfl⟩

namespace ConstantExpr

variable {ctx whole : ModuleContext} {s : Store} {i : ModuleInstance} {result : Option Value} {t : Valtype}
  {args rest : List Node} {memArg : Option MemArg}

/-- A constant replaces the value so far. -/
theorem evaluateFrom_const {r : Option Value} :
    evaluateFrom s i result (.instr "const" (some t) args memArg :: rest) = .ok r ↔
      ∃ literal v, args.head? = some literal ∧ Value.ofLiteral t literal = .ok v ∧
        evaluateFrom s i (some v) rest = .ok r := by
  cases head : args.head? with
  | none => simp [evaluateFrom, head]
  | some literal => simp [evaluateFrom, head, bind_eq_ok_iff]

/-- Reading a global replaces the value so far by that of the global. -/
theorem evaluateFrom_getGlobal {n : NumberLiteral} (first : args.head? = some (.number n)) {r : Option Value} :
    evaluateFrom s i result (.instr "get_global" none args memArg :: rest) = .ok r ↔
      ∃ a g, i.global n.toU32 = .ok a ∧ s.global a = .ok g ∧ evaluateFrom s i (some g.value) rest = .ok r := by
  simp [evaluateFrom, first, bind_eq_ok_iff]

theorem evaluateFrom_end : evaluateFrom s i result (.instr "end" none args memArg :: rest) =
    evaluateFrom s i result rest := by
  simp [evaluateFrom]

/-- The last of some elements, whatever there was before. -/
theorem getLast?_cons_or {α : Type} (a : α) (as : List α) (o : Option α) :
    (a :: as).getLast?.or o = as.getLast?.or (some a) := by
  rw [List.getLast?_cons, Option.some_or, Option.or_some]

/-- An instance has an address for a global just if its context declares it. -/
theorem global_iff (held : InstanceTyped s ctx i) {n : Nat} :
    (∃ a, i.global n = .ok a) ↔ n < ctx.globals.length := by
  rw [← held.globals.length_eq, ModuleInstance.global]
  cases found : i.globals[n]? with
  | none => simpa using List.getElem?_eq_none_iff.1 found
  | some a => simpa using (List.getElem?_eq_some_iff.1 found).1

/-- The first globals are declared alike by all fields. -/
theorem declared_of_append (first : ∃ more, whole.globals = ctx.globals ++ more) {n : Nat}
    (known : n < ctx.globals.length) {type : GlobalType} (declared : whole.global? n = some type) :
    ctx.global? n = some type := by
  obtain ⟨more, same⟩ := first
  rwa [ModuleContext.global?, same, List.getElem?_append_left known] at declared

/-- What stands at the address of a declared global has a value of the type that was declared. -/
theorem type_of_declared (typed : s.GlobalsTyped) (held : InstanceTyped s ctx i)
    (first : ∃ more, whole.globals = ctx.globals ++ more) {n a : Nat} {type : GlobalType} {g : GlobalInstance}
    (declared : whole.global? n = some type) (address : i.global n = .ok a) (found : s.global a = .ok g) :
    g.value.type = type.valtype := by
  have known := (global_iff held).1 ⟨a, address⟩
  obtain ⟨a', g', address', found', valtype, -⟩ := held.global (declared_of_append first known declared)
  cases address.symm.trans address'
  cases found.symm.trans found'
  rw [typed a g found, valtype]

/-- An initialiser that passes the check against all globals of a module gives a value of the type that the check
found, just if its constants have literals and it reads only globals that the instance has so far. -/
theorem evaluateFrom_iff (typed : s.GlobalsTyped) (held : InstanceTyped s ctx i)
    (first : ∃ more, whole.globals = ctx.globals ++ more) {init : List Node} {ts : List Valtype}
    (passes : constantTypes whole init = .ok ts) (result : Option Value) :
    (∃ r, evaluateFrom s i result init = .ok r ∧ r.map Value.type = ts.getLast?.or (result.map Value.type)) ↔
      ReadsAmong ctx.globals.length init := by
  induction init generalizing ts result with
  | nil =>
    cases passes
    exact iff_of_true ⟨result, rfl, rfl⟩ (readsAmong_nil _)
  | cons node rest ih =>
    rw [readsAmong_cons]
    cases node with
    | instr name object args memArg =>
      unfold constantTypes at passes
      cases object with
      | some t =>
        dsimp only at passes
        split_ifs at passes with isConst
        obtain ⟨ts', later, same⟩ := bind_eq_ok_iff.1 passes
        obtain rfl := pure_eq_ok_iff.1 same
        subst isConst
        simp only [evaluateFrom_const, getLast?_cons_or]
        constructor
        · rintro ⟨r, ⟨literal, v, head, value, evaluated⟩, type⟩
          -- A constant reads nothing, so that only its literal matters.
          refine ⟨⟨fun _ => ⟨literal, v, head, value⟩, fun n reads => ?_⟩, (ih later (some v)).1 ⟨r, evaluated, ?_⟩⟩
          · cases (instr_of_reads reads).2.1
          · rw [type, Option.map_some, Value.type_of_ofLiteral value]
        · rintro ⟨⟨literal, -⟩, ready⟩
          obtain ⟨literal, v, head, value⟩ := literal rfl
          obtain ⟨r, evaluated, type⟩ := (ih later (some v)).2 ready
          refine ⟨r, ⟨literal, v, head, value, evaluated⟩, ?_⟩
          rw [type, Option.map_some, Value.type_of_ofLiteral value]
      | none =>
        dsimp only at passes
        split_ifs at passes with isEnd isGet
        · subst isEnd
          rw [evaluateFrom_end, ih passes]
          exact (and_iff_right ⟨trivial, fun n reads => absurd (instr_of_reads reads).1 (by decide)⟩).symm
        · subst isGet
          split at passes
          · next n head =>
            split at passes
            · next t declared =>
              obtain ⟨ts', later, same⟩ := bind_eq_ok_iff.1 passes
              obtain rfl := pure_eq_ok_iff.1 same
              simp only [evaluateFrom_getGlobal head, getLast?_cons_or]
              constructor
              · rintro ⟨r, ⟨a, g, address, found, evaluated⟩, type⟩
                refine ⟨⟨trivial, fun n' reads => ?_⟩, (ih later (some g.value)).1 ⟨r, evaluated, ?_⟩⟩
                · cases head.symm.trans (instr_of_reads reads).2.2
                  exact (global_iff held).1 ⟨a, address⟩
                · rw [type, Option.map_some, type_of_declared typed held first declared address found]
              · rintro ⟨⟨-, earlier⟩, ready⟩
                obtain ⟨others, rfl⟩ := List.head?_eq_some_iff.1 head
                have known := earlier n (.here (i := .number n))
                obtain ⟨a, g, address, found, -⟩ := held.global (declared_of_append first known declared)
                obtain ⟨r, evaluated, type⟩ := (ih later (some g.value)).2 ready
                refine ⟨r, ⟨a, g, address, found, evaluated⟩, ?_⟩
                rw [type, Option.map_some, type_of_declared typed held first declared address found]
            · cases passes
          · cases passes
    | _ => cases passes

end ConstantExpr

/-! ## Reaching a global -/

namespace Program

variable {imports : ImportObject} {owner : Nat} {i : ModuleInstance} {s t : Store}

/-- The initialiser of a global of a valid module gives a value of the type of the global when an allocation reaches
it, just if its constants have literals and it reads only globals that are imported or defined before. -/
theorem initialises_iff_of_compile {p q : Program} (compiled : p.compile = .ok q) {node : Node}
    (listed : node ∈ q.body) {m : Module} (here : node.module? = some m) {before after : List Node}
    {type : GlobalType} {init : List Node} {name : Option Identifier}
    (fields : m.fields = before ++ .global type init name :: after) (typed : s.GlobalsTyped)
    (reached : Linking.allocateFields imports (.ofModule m) owner .empty before s = .ok i t) :
    Linking.Initialises t i type init ↔ ReadsAmong (definedIn .global before) init := by
  obtain ⟨-, -, n, -, resolved, valid⟩ := source_of_compile compiled listed here
  have inside : ∀ field ∈ before, field ∈ m.fields := fun field inside => fields ▸ List.mem_append_left _ inside
  have now := Linking.numbered_allocateFields (numbered_empty (.ofModule m) owner s)
    (fun field member => Module.hasSignature_of_resolve resolved field (inside field member))
    (fun decl u member => Module.import_of_validate valid (inside _ member) u)
    reached
  have count : (before.foldl ModuleContext.addField .empty).globals.length = definedIn .global before :=
    ModuleContext.countOf_ofModule ⟨none, before, none⟩ .global
  have first : ∃ more, (ModuleContext.ofModule m).globals =
      (before.foldl ModuleContext.addField .empty).globals ++ more := by
    rw [ModuleContext.ofModule, fields, List.foldl_append]
    exact ModuleContext.exists_globals_foldl _ _
  obtain ⟨addresses, changes⟩ := Linking.confined_allocateFields (n := 0) imports (.ofModule m) owner .empty before s
  rw [reached] at changes
  have passes : constantTypes (.ofModule m) init = .ok [type.valtype] :=
    Module.initialiser_of_validate valid (fields ▸ List.mem_append_right _ List.mem_cons_self)
  rw [← count, ← ConstantExpr.evaluateFrom_iff
    (typed.extend (Store.Extends.of_changes changes (Nat.zero_le _))) now.context first passes none]
  constructor
  · rintro ⟨v, evaluated, same⟩
    exact ⟨some v, evaluated, congrArg some same⟩
  · rintro ⟨r, evaluated, found⟩
    obtain ⟨v, rfl, valtype⟩ := Option.map_eq_some_iff.1 (show r.map Value.type = some type.valtype from found)
    exact ⟨v, evaluated, valtype⟩

end Program

/-! ## A global between two constants -/

/-- A module of three globals, of which the second reads the one of some number. -/
def readingGlobal (n : NumberLiteral) : Module :=
  let seven : List Node := [.instr "const" (some .i32) [.number ⟨7, "7"⟩] none]
  ⟨none, [.global ⟨.i32, .const⟩ seven (some (.synthesized "global_0")),
    .global ⟨.i32, .const⟩ [.instr "get_global" none [.number n] none] (some (.synthesized "global_1")),
    .global ⟨.i32, .const⟩ seven (some (.synthesized "global_2"))], none⟩

theorem Program.initialises_readingGlobal : ∃ i t,
    Linking.allocateFields .empty (.ofModule (readingGlobal ⟨0, "0"⟩)) 0 .empty
      ((readingGlobal ⟨0, "0"⟩).fields.take 1) .empty = .ok i t ∧
    Linking.Initialises t i ⟨.i32, .const⟩ [.instr "get_global" none [.number ⟨0, "0"⟩] none] := by
  let m := readingGlobal ⟨0, "0"⟩
  have compiled : Program.compile ⟨[m.toNode]⟩ = .ok ⟨[m.toNode]⟩ := rfl
  obtain ⟨i, t, reached⟩ : ∃ i t, Linking.allocateFields .empty (.ofModule m) 0 .empty (m.fields.take 1) .empty =
      .ok i t := ⟨_, _, rfl⟩
  refine ⟨i, t, reached, (Program.initialises_iff_of_compile compiled (List.mem_singleton.2 rfl) rfl
    (show m.fields = m.fields.take 1 ++ _ from rfl) Store.globalsTyped_empty reached).2 ⟨?_, ?_⟩⟩
  · exact List.forall_mem_singleton.2 trivial
  · refine List.forall_mem_singleton.2 fun n reads => ?_
    cases (instr_of_reads reads).2.2
    decide

/-- A text whose second global reads the third one is accepted, but the third one has no address when the second one
is reached. -/
theorem Program.not_initialises_of_compileSource : ¬ ∀ (source : String) (m : Module),
    Engine.compileSource source = .ok m → ∀ before type init name after,
      m.fields = before ++ .global type init name :: after → ∀ imports owner i s t, s.GlobalsTyped →
        Linking.allocateFields imports (.ofModule m) owner .empty before s = .ok i t →
          Linking.Initialises t i type init := by
  intro all
  let text := "(module (global i32 (i32.const 7)) (global i32 (get_global 2)) (global i32 (i32.const 7)))"
  have parsed : Wat.parse text = .ok ⟨[(readingGlobal ⟨2, "2"⟩).toNode]⟩ :=
    (Wat.parse_of_toList String.toList_ofList).trans (by decide +kernel)
  have accepted : Engine.compileSource text = .ok (readingGlobal ⟨2, "2"⟩) := by
    rw [Engine.compileSource, Engine.parse, parsed]
    rfl
  obtain ⟨v, evaluated, -⟩ := all _ _ accepted [_] _ _ _ _ rfl .empty 0 _ .empty _ Store.globalsTyped_empty rfl
  cases evaluated

end WasmEngine
