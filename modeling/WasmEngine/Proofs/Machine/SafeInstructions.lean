import Mathlib.Data.List.Induction
import WasmEngine.Proofs.Machine.Lifting
import WasmEngine.Proofs.Machine.Operators
import WasmEngine.Proofs.Machine.StoreTyping

/-!
# Instructions that open nothing are safe

A part of an evaluation is safe if it ends in a state that is described, or stops in a way that is
allowed.  An instruction of a type, in a state whose operands have the types that it takes, leaves the types
that it gives or traps.  None of the other faults of its parts can happen: what it looks for is
declared, and what is declared is there.
-/

namespace WasmEngine.Structured

open Stack Outcome

variable {σ α β : Type}

/-- A result is as described, or the computation stopped in an allowed way. -/
def Safe (stops : Halt → Store → Prop) (post : α → Activation σ → Prop) :
    EStateM.Result Halt (Activation σ) α → Prop
  | .ok v a => post v a
  | .error h a => stops h a.store

/-- The store evolved from the one at the start, and the locals have their types. -/
structure Kept (start : Store) (locals : List Valtype) (a : Activation σ) : Prop where
  store : Evolves start a.store
  locals : a.locals.map Value.type = locals

/-- The operands have types as well. -/
structure Typed (start : Store) (locals ts : List Valtype) (a : Activation σ) : Prop
    extends Kept start locals a where
  operands : a.operands.map Value.type = ts

section

variable {stops : Halt → Store → Prop} {post : α → Activation σ → Prop}
  {after : β → Activation σ → Prop} {a : Activation σ}

/-- Safe steps in sequence are safe, the rest from what the first one establishes. -/
theorem Safe.bind {x : Eval σ α} {f : α → Eval σ β} (first : Safe stops post (x a))
    (rest : ∀ v b, post v b → Safe stops after (f v b)) : Safe stops after ((x >>= f) a) := by
  cases run : x a with
  | ok v b =>
    rw [run] at first
    rw [bind_ok run]
    exact rest v b first
  | error h b =>
    rw [run] at first
    rw [bind_error run]
    exact first

/-- A weaker postcondition is kept as well. -/
theorem Safe.mono {r : EStateM.Result Halt (Activation σ) α} {post' : α → Activation σ → Prop}
    (safe : Safe stops post r) (implies : ∀ v b, post v b → post' v b) : Safe stops post' r := by
  cases r with
  | ok v b => exact implies v b safe
  | error h b => exact safe

/-- Reading the state is safe when what follows is. -/
theorem Safe.get {f : Activation σ → Eval σ β} (rest : Safe stops after (f a a)) :
    Safe stops after ((MonadStateOf.get >>= f) a) := rest

/-- A lookup that finds something is safe when what follows is. -/
theorem Safe.found {x : Except Fault α} {v : α} {f : α → Eval σ β} (found : x = .ok v)
    (rest : Safe stops after (f v a)) : Safe stops after ((ofResult x >>= f) a) := by
  rw [found]
  exact rest

theorem safe_ofResult {x : Except Fault α} {v : α} (found : x = .ok v) (now : post v a) :
    Safe stops post ((ofResult x : Eval σ α) a) := by
  rw [found]
  exact now

end

/-! ## Taking operands of known types -/

theorem stackOf_eq_stacked (vs : List Value) : stackOf vs = stacked [] vs := by simp [stackOf, stacked]

theorem pop_stackOf (vs : List Value) (v : Value) :
    pop (stackOf (vs ++ [v])) = .ok v (stackOf vs) := by simp [pop, stackOf]

/-- The value on top of a stack of operands is popped by its type. -/
theorem popTyped_stackOf (vs : List Value) {v : Value} {t : Valtype} (type : v.type = t) :
    popTyped t (stackOf (vs ++ [v])) = .ok v (stackOf vs) := by
  rw [popTyped, bind_ok (pop_stackOf vs v), if_pos type]
  rfl

/-- The topmost operands are popped by their types, in order. -/
theorem popTypesOnto_stackOf (vs ws taken : List Value) :
    popTypesOnto taken (ws.map Value.type).reverse (stackOf (vs ++ ws)) =
      .ok (ws ++ taken) (stackOf vs) := by
  induction ws using List.reverseRecOn generalizing taken with
  | nil =>
    rw [List.append_nil]
    rfl
  | append_singleton ws w ih =>
    have first : popTyped w.type (stackOf (vs ++ (ws ++ [w]))) = .ok w (stackOf (vs ++ ws)) := by
      rw [← List.append_assoc]
      exact popTyped_stackOf _ rfl
    rw [List.map_append, List.reverse_append, List.map_singleton, List.reverse_singleton,
      List.singleton_append, popTypesOnto, bind_ok first, ih, List.append_assoc,
      List.singleton_append]

/-- The topmost operands are popped by their number, in order. -/
theorem popOnto_stackOf (vs ws taken : List Value) :
    popOnto taken ws.length (stackOf (vs ++ ws)) = .ok (ws ++ taken) (stackOf vs) := by
  induction ws using List.reverseRecOn generalizing taken with
  | nil =>
    rw [List.append_nil]
    rfl
  | append_singleton ws w ih =>
    rw [List.length_append, List.length_singleton, ← List.append_assoc, popOnto,
      bind_ok (pop_stackOf _ w), ih, List.append_assoc, List.singleton_append]

/-- Operands whose types are a list after another are operands after others. -/
theorem exists_operands {vs : List Value} {ts us : List Valtype}
    (types : vs.map Value.type = ts ++ us) :
    ∃ below taken, vs = below ++ taken ∧ below.map Value.type = ts ∧ taken.map Value.type = us := by
  obtain ⟨below, taken, rfl, below_types, taken_types⟩ := List.map_eq_append_iff.1 types
  exact ⟨below, taken, rfl, below_types, taken_types⟩

section

variable {stops : Halt → Store → Prop} {start : Store} {locals ts us : List Valtype} {t : Valtype}
  {a : Activation σ}

/-- An operation that leaves some of the operands. -/
theorem Typed.onOperands {f : StackM α} {below : List Value} {v : α}
    (runs : f (stackOf a.operands) = .ok v (stackOf below)) :
    Structured.onOperands f a = .ok v { a with operands := below } := by
  simp only [Structured.onOperands, runs]
  rw [stackOf_eq_stacked, values_stacked]

/-- An activation stays typed when operands are taken off. -/
theorem Typed.below (typed : Typed start locals ts a) {below : List Value}
    (types : below.map Value.type = us) : Typed start locals us { a with operands := below } :=
  ⟨⟨typed.store, typed.locals⟩, types⟩

theorem safe_pop (typed : Typed start locals (ts ++ [t]) a) :
    Safe stops (fun v b => v.type = t ∧ Typed start locals ts b) (onOperands pop a) := by
  obtain ⟨below, taken, operands, types, last⟩ := exists_operands typed.operands
  obtain ⟨v, rfl, type⟩ := List.map_eq_singleton_iff.1 last
  rw [Typed.onOperands (operands ▸ pop_stackOf below v)]
  exact ⟨type, typed.below types⟩

theorem safe_popTyped (typed : Typed start locals (ts ++ [t]) a) :
    Safe stops (fun v b => v.type = t ∧ Typed start locals ts b) (onOperands (popTyped t) a) := by
  obtain ⟨below, taken, operands, types, last⟩ := exists_operands typed.operands
  obtain ⟨v, rfl, type⟩ := List.map_eq_singleton_iff.1 last
  rw [Typed.onOperands (operands ▸ popTyped_stackOf below type)]
  exact ⟨type, typed.below types⟩

theorem safe_popI32 (typed : Typed start locals (ts ++ [.i32]) a) :
    Safe stops (fun _ b => Typed start locals ts b) (onOperands popI32 a) := by
  obtain ⟨below, taken, operands, types, last⟩ := exists_operands typed.operands
  obtain ⟨v, rfl, type⟩ := List.map_eq_singleton_iff.1 last
  obtain ⟨n, rfl⟩ : ∃ n, v = .i32 n := by
    cases v with
    | i32 n => exact ⟨n, rfl⟩
    | i64 n => cases type
    | f32 n => cases type
    | f64 n => cases type
  have runs : popI32 (stackOf a.operands) = .ok n (stackOf below) := by
    rw [operands, popI32, bind_ok (popTyped_stackOf below type)]
    rfl
  rw [Typed.onOperands runs]
  exact typed.below types

theorem safe_popTypes (typed : Typed start locals (ts ++ us) a) :
    Safe stops (fun vs b => vs.map Value.type = us ∧ Typed start locals ts b)
      (onOperands (popTypes us) a) := by
  obtain ⟨below, taken, operands, types, rfl⟩ := exists_operands typed.operands
  have runs : popTypes (taken.map Value.type) (stackOf a.operands) =
      .ok taken (stackOf below) := by
    rw [operands, popTypes, popTypesOnto_stackOf, List.append_nil]
  rw [Typed.onOperands runs]
  exact ⟨rfl, typed.below types⟩

theorem safe_popN {n : Nat} (typed : Typed start locals (ts ++ us) a) (count : n = us.length) :
    Safe stops (fun vs b => vs.map Value.type = us ∧ Typed start locals ts b)
      (onOperands (popN n) a) := by
  obtain ⟨below, taken, operands, types, rfl⟩ := exists_operands typed.operands
  have runs : popN n (stackOf a.operands) = .ok taken (stackOf below) := by
    rw [operands, popN, count, List.length_map, popOnto_stackOf, List.append_nil]
  rw [Typed.onOperands runs]
  exact ⟨rfl, typed.below types⟩

theorem safe_push {v : Value} (typed : Typed start locals ts a) (type : v.type = t) :
    Safe stops (fun _ b => Typed start locals (ts ++ [t]) b) (onOperands (push v) a) := by
  have runs : push v (stackOf a.operands) = .ok () (stackOf (a.operands ++ [v])) := by
    simp [push, stackOf, Outcome.run_modify]
  rw [Typed.onOperands runs]
  exact typed.below (by simp [typed.operands, type])

theorem safe_pushAll {vs : List Value} (typed : Typed start locals ts a)
    (types : vs.map Value.type = us) :
    Safe stops (fun _ b => Typed start locals (ts ++ us) b) (onOperands (pushAll vs) a) := by
  have runs : pushAll vs (stackOf a.operands) = .ok () (stackOf (a.operands ++ vs)) := by
    simp [pushAll, stackOf, Outcome.run_modify]
  rw [Typed.onOperands runs]
  exact typed.below (by simp [typed.operands, types])

end

open Typing

/-! ## Numeric instructions -/

/-- Local steps in sequence act on the operands one after the other. -/
theorem onOperands_bind {f : StackM α} {g : α → StackM β} (isLocal : Local f) :
    (onOperands (f >>= g) : Eval σ β) = onOperands f >>= fun v => onOperands (g v) := by
  funext a
  obtain ⟨r, runs⟩ := isLocal a.operands
  have here := runs [] closed_nil
  rw [← stackOf_eq_stacked] at here
  cases r with
  | ok v vs =>
    rw [onState_ok, ← stackOf_eq_stacked] at here
    rw [bind_ok (Typed.onOperands here)]
    simp only [onOperands, bind_ok here]
  | error e vs =>
    rw [onState_error] at here
    have stops : (onOperands f : Eval σ α) a =
        .error (.fault e) { a with operands := (stacked [] vs).values } := by
      simp only [onOperands, here]
    rw [bind_error stops]
    simp only [onOperands, bind_error here]

section

variable {stops : Halt → Store → Prop} {start : Store} {locals ts us : List Valtype} {t : Valtype}
  {a : Activation σ}

theorem onOperands_ofResult (r : Except Fault α) :
    (onOperands (Stack.ofResult r) : Eval σ α) = ofResult r := by
  funext a
  have same : (stackOf a.operands).values = a.operands := by
    rw [stackOf_eq_stacked, values_stacked]
  cases r with
  | ok v => exact congrArg (fun vs => EStateM.Result.ok v { a with operands := vs }) same
  | error e =>
    exact congrArg (fun vs => EStateM.Result.error (Halt.fault e) { a with operands := vs }) same

/-- A value that is pushed, unless it is a trap. -/
theorem safe_gives (traps : ∀ kind s, Evolves start s → stops (.fault (.trap kind)) s)
    {r : Except Fault Value} (gives : GivesOrTraps t r) (typed : Typed start locals ts a) :
    Safe stops (fun _ b => Typed start locals (ts ++ [t]) b)
      ((ofResult r >>= fun v => onOperands (push v)) a) := by
  cases r with
  | ok v => exact safe_push typed gives
  | error e =>
    obtain ⟨kind, rfl⟩ := gives
    exact traps kind _ typed.store

theorem safe_operator (traps : ∀ kind s, Evolves start s → stops (.fault (.trap kind)) s)
    {r : Except Fault Value} (gives : GivesOrTraps t r) (typed : Typed start locals ts a) :
    Safe stops (fun _ b => Typed start locals (ts ++ [t]) b)
      (onOperands (Stack.ofResult r >>= push) a) := by
  rw [onOperands_bind (local_ofResult r), onOperands_ofResult]
  exact safe_gives traps gives typed

/-- A numeric instruction gives what its type says or traps. -/
theorem safe_numeric (traps : ∀ kind s, Evolves start s → stops (.fault (.trap kind)) s)
    {op : Opcode} (listed : op ∈ Opcode.table) (object : op.object = some t)
    (notConst : op.name ≠ "const") (notLoad : Text.beginsWith "load" op.name = false)
    (notStore : Text.beginsWith "store" op.name = false)
    (typed : Typed start locals (ts ++ (op.typeOn t).args) a) :
    Safe stops (fun _ b => Typed start locals (ts ++ (op.typeOn t).result) b)
      (onOperands (numeric t op.name) a) := by
  have operator := (Opcode.numeric_checked op listed t object).2.2.2 notConst notLoad notStore
  have type := Signatures.numeric?_eq_some_iff.2 ⟨op, listed, object, rfl, rfl⟩
  unfold numeric
  simp only [type]
  unfold Opcode.hasOperator at operator
  generalize op.typeOn t = signature at operator typed
  split at operator
  · next id rest s r cut =>
    rw [Bool.and_eq_true, beq_iff_eq] at operator
    obtain ⟨rfl, known⟩ := operator
    simp only [cut]
    rw [onOperands_bind (local_popTyped _)]
    exact (safe_popTyped typed).bind fun v b ⟨type, typed⟩ =>
      safe_operator traps (Value.convert_gives known type) typed
  · next s r cut =>
    rw [Bool.and_eq_true, beq_iff_eq] at operator
    obtain ⟨rfl, known⟩ := operator
    simp only [cut]
    rw [onOperands_bind (local_popTyped _)]
    exact (safe_popTyped typed).bind fun v b ⟨type, typed⟩ =>
      safe_operator traps (Value.unary_gives known type) typed
  · next s u r cut =>
    rw [Bool.and_eq_true, Bool.and_eq_true, beq_iff_eq, beq_iff_eq] at operator
    obtain ⟨⟨rfl, rfl⟩, known⟩ := operator
    simp only [cut]
    rw [onOperands_bind (local_popTyped _)]
    have split : ts ++ [u, u] = ts ++ [u] ++ [u] := by simp
    refine (safe_popTyped (split ▸ typed)).bind fun right b ⟨typeRight, typed⟩ => ?_
    rw [onOperands_bind (local_popTyped _)]
    exact (safe_popTyped typed).bind fun left c ⟨typeLeft, typed⟩ =>
      safe_operator traps (Value.binary_gives known typeLeft typeRight) typed
  · cases operator

end

/-! ## What instructions look for -/

/-- The surroundings of an instruction are those that the checker gave it. -/
structure InScope (start : Store) (ctx : ModuleContext) (frame : FuncFrame) (scope : Scope) :
    Prop where
  labels : scope.labels = frame.labels.map List.length
  returns : scope.returns = frame.returns.length
  owner : ∃ m, start.instance? scope.owner = .ok m ∧ InstanceTyped start ctx m

/-- An index that is spelled is read off the arguments. -/
theorem indexArg_eq {name : String} {args : List Node} {position i : Nat}
    (index : args[position]?.bind position? = some i) :
    (indexArg name args position : Eval σ Nat) = pure i := by
  obtain ⟨arg, found, here⟩ := Option.bind_eq_some_iff.1 index
  unfold indexArg
  rw [found]
  cases arg <;> cases here
  rfl

section

variable {stops : Halt → Store → Prop} {start : Store} {ctx : ModuleContext} {frame : FuncFrame}
  {scope : Scope} {locals ts us : List Valtype} {t : Valtype} {a : Activation σ}

theorem safe_currentInstance (inScope : InScope start ctx frame scope) (kept : Kept start locals a) :
    Safe stops (fun m b => InstanceTyped start ctx m ∧ b = a) (currentInstance scope a) := by
  obtain ⟨m, here, typed⟩ := inScope.owner
  exact safe_ofResult ((kept.store.instances _).trans here) ⟨typed, rfl⟩

theorem safe_onStore {f : StoreM α} {post : α → Activation σ → Prop} {v : α} {s : Store}
    (runs : f a.store = .ok v s) (now : post v { a with store := s }) :
    Safe stops post (onStore f a) := by
  simp only [onStore, runs]
  exact now

/-- An activation stays typed while the store evolves. -/
theorem Typed.evolve (typed : Typed start locals ts a) {s : Store} (evolves : Evolves a.store s) :
    Typed start locals ts { a with store := s } :=
  ⟨⟨typed.store.trans evolves, typed.locals⟩, typed.operands⟩

theorem safe_memoryAddress (inScope : InScope start ctx frame scope) (declared : ctx.mems ≠ [])
    {f : Nat → Eval σ β} {after : β → Activation σ → Prop} (kept : Kept start locals a)
    (rest : ∀ address m, start.memory address = .ok m → Safe stops after (f address a)) :
    Safe stops after ((do
      let address ← ofResult (← currentInstance scope).memory
      f address) a) := by
  refine (safe_currentInstance inScope kept).bind fun m b ⟨typed, same⟩ => ?_
  subst same
  obtain ⟨address, m, found, here⟩ := typed.memory declared
  exact Safe.found found (rest address m here)

theorem safe_memory (inScope : InScope start ctx frame scope) (declared : ctx.mems ≠ [])
    {f : Nat → Memory → Eval σ β} {after : β → Activation σ → Prop} (kept : Kept start locals a)
    (rest : ∀ address m, a.store.memory address = .ok m → Safe stops after (f address m a)) :
    Safe stops after ((do
      let address ← ofResult (← currentInstance scope).memory
      let m ← ofResult ((← get).store.memory address)
      f address m) a) := by
  refine safe_memoryAddress inScope declared kept fun address m here => ?_
  obtain ⟨now, here⟩ := kept.store.memories _ _ here
  exact Safe.get (Safe.found here (rest address now here))

/-! ## Instructions on a type -/

variable {op : Opcode} (traps : ∀ kind s, Evolves start s → stops (.fault (.trap kind)) s)
  (inScope : InScope start ctx frame scope) (listed : op ∈ Opcode.table)
  (object : op.object = some t) (memory : op.immediate = .memArg → ctx.mems ≠ [])

include traps inScope listed object memory

theorem safe_load (loads : Text.beginsWith "load" op.name = true) (memArg : Option MemArg)
    (typed : Typed start locals (ts ++ (op.typeOn t).args) a) :
    Safe stops (fun _ b => Typed start locals (ts ++ (op.typeOn t).result) b)
      (load scope t op.name memArg a) := by
  obtain ⟨known, type, immediate⟩ := (Opcode.numeric_checked op listed t object).2.1 loads
  rw [type] at typed ⊢
  exact (safe_popI32 typed).bind fun base b typed =>
    safe_memory inScope (memory immediate) typed.toKept fun address m here =>
      safe_gives traps (m.load_gives known _) typed

theorem safe_store (stores : Text.beginsWith "store" op.name = true) (memArg : Option MemArg)
    (typed : Typed start locals (ts ++ (op.typeOn t).args) a) :
    Safe stops (fun _ b => Typed start locals (ts ++ (op.typeOn t).result) b)
      (store scope t op.name memArg a) := by
  obtain ⟨known, type, immediate⟩ := (Opcode.numeric_checked op listed t object).2.2.1 stores
  obtain ⟨width, found⟩ := Option.isSome_iff_exists.1 known
  have split : ts ++ [.i32, t] = ts ++ [.i32] ++ [t] := by simp
  rw [type] at typed ⊢
  refine (safe_popTyped (split ▸ typed)).bind fun v b ⟨_, typed⟩ =>
    (safe_popI32 typed).bind fun base c typed =>
      safe_memory inScope (memory immediate) typed.toKept fun address m here => ?_
  simp only [found, List.append_nil]
  obtain ⟨s, runs, evolves⟩ | runs := Evolves.writeMemory here
    (effectiveAddress base memArg) (LittleEndian.bytes width v.bits)
  · exact safe_onStore runs (typed.evolve evolves)
  · simp only [onStore, runs]
    exact traps _ _ typed.store

theorem safe_onType {args : List Node} {memArg : Option MemArg}
    (literal : Node.HasLiteral (.instr op.name (some t) args memArg))
    (typed : Typed start locals (ts ++ (op.typeOn t).args) a) :
    Safe stops (fun _ b => Typed start locals (ts ++ (op.typeOn t).result) b)
      (onType scope t op.name args memArg a) := by
  unfold onType
  split_ifs with isConst loads stores
  · obtain ⟨literal, v, head, value⟩ := literal isConst
    rw [(Opcode.numeric_checked op listed t object).1 isConst] at typed ⊢
    rw [head]
    rw [List.append_nil] at typed
    have gives : GivesOrTraps t (Value.ofLiteral t literal) := by
      rw [value]
      exact Value.type_of_ofLiteral value
    exact safe_gives traps gives typed
  · exact safe_load traps inScope listed object memory loads memArg typed
  · exact safe_store traps inScope listed object memory stores memArg typed
  · exact safe_numeric traps listed object isConst (Bool.not_eq_true _ ▸ loads)
      (Bool.not_eq_true _ ▸ stores) typed

end

/-! ## Instructions on no type -/

/-- What a completion carries has the types that it is expected with: the operands of a sequence that
ends, the values of a label, or the results of the function. -/
def Completes (start : Store) (frame : FuncFrame) (us : List Valtype) :
    Completion → Activation σ → Prop
  | .normal, a => Typed start frame.locals us a
  | .branch depth vs, a => Kept start frame.locals a ∧
      frame.label? depth = some (vs.map Value.type)
  | .ret vs, a => Kept start frame.locals a ∧ vs.map Value.type = frame.returns

section

variable {stops : Halt → Store → Prop} {start : Store} {ctx : ModuleContext} {frame : FuncFrame}
  {scope : Scope} {ts us : List Valtype} {t : Valtype} {a : Activation σ} {i : Nat}

theorem safe_setLocal {v : Value} (declared : frame.local? i = some v.type)
    (typed : Typed start frame.locals ts a) :
    Safe stops (fun _ b => Typed start frame.locals ts b) (setLocal i v a) := by
  obtain ⟨known, type⟩ := List.getElem?_eq_some_iff.1 declared
  have bound : i < a.locals.length := by
    rw [← List.length_map Value.type, typed.locals]
    exact known
  have assigned : setLocal i v a = .ok () { a with locals := a.locals.set i v } := by
    simp [setLocal, bind, EStateM.bind, Outcome.run_get, bound, Outcome.run_set]
  rw [assigned]
  refine ⟨⟨typed.store, ?_⟩, typed.operands⟩
  rw [List.map_set, typed.locals, ← type, List.set_getElem_self]

theorem safe_branch {depth : Nat} (inScope : InScope start ctx frame scope)
    (label : frame.label? depth = some us) (typed : Typed start frame.locals (ts ++ us) a)
    (vs : List Valtype) :
    Safe stops (Completes start frame vs) (branch scope depth a) := by
  have arity : scope.labels[depth]? = some us.length := by
    rw [inScope.labels, List.getElem?_map]
    exact congrArg (Option.map List.length) label
  unfold branch
  rw [arity]
  refine (safe_popN typed rfl).bind fun carried b ⟨types, typed⟩ => ?_
  exact ⟨typed.toKept, types ▸ label⟩

theorem safe_plain_of_simple {id : String} {args : List Node} (stays : id ∉ leaving)
    (safe : Safe stops (fun _ b => Typed start frame.locals us b) (simple scope id args a)) :
    Safe stops (Completes start frame us) (plain scope id args a) := by
  unfold plain
  split
  · exact absurd stays (by decide)
  · exact absurd stays (by decide)
  · exact absurd stays (by decide)
  · exact absurd stays (by decide)
  · exact safe.bind fun _ b typed => typed

theorem safe_global {args : List Node} {name : String} {type : GlobalType}
    (inScope : InScope start ctx frame scope) (index : args[0]?.bind position? = some i)
    (declared : ctx.global? i = some type) {f : Nat → Eval σ β} {after : β → Activation σ → Prop}
    (kept : Kept start frame.locals a)
    (rest : ∀ address g, start.global address = .ok g → g.valtype = type.valtype →
      (type.mutability = .var → g.mutability = .var) → Safe stops after (f address a)) :
    Safe stops after ((do
      let m ← currentInstance scope
      let address ← ofResult (m.global (← indexArg name args 0))
      f address) a) := by
  refine (safe_currentInstance inScope kept).bind fun m b ⟨typed, same⟩ => ?_
  subst same
  obtain ⟨address, g, found, here, valtype, mutability⟩ := typed.global declared
  rw [indexArg_eq index]
  exact Safe.found found (rest address g here valtype mutability)

variable (traps : ∀ kind s, Evolves start s → stops (.fault (.trap kind)) s)
  (values : ∀ address g, start.global address = .ok g → g.value.type = g.valtype)

include traps values

/-- An instruction that works on no type of its own and opens nothing. -/
theorem safe_plain {id : String} {args : List Node} {memArg : Option MemArg}
    (inScope : InScope start ctx frame scope)
    (type : HasType ctx frame (.instr id none args memArg) ts us) {base : List Valtype}
    (typed : Typed start frame.locals (base ++ ts) a) :
    Safe stops (Completes start frame (base ++ us)) (plain scope id args a) := by
  cases type with
  | nop => exact safe_plain_of_simple (by decide) typed
  | finish => exact safe_plain_of_simple (by decide) typed
  | unreachable => exact safe_plain_of_simple (by decide) (traps _ _ typed.store)
  | drop =>
    refine safe_plain_of_simple (by decide) ((safe_pop typed).bind fun v b popped => ?_)
    exact (List.append_nil base).symm ▸ popped.2
  | @select _ _ _ t =>
    have operands : base ++ [t, t, .i32] = base ++ [t] ++ [t] ++ [.i32] := by simp
    refine safe_plain_of_simple (by decide) ?_
    refine (safe_popI32 (operands ▸ typed)).bind fun condition b typed =>
      (safe_pop typed).bind fun second c popped =>
        (safe_pop popped.2).bind fun first d popped' => safe_push popped'.2 ?_
    split_ifs
    · exact popped.1
    · exact popped'.1
  | getLocal index declared =>
    refine safe_plain_of_simple (by decide) ?_
    simp only [simple]
    rw [indexArg_eq index, pure_bind]
    refine Safe.get ?_
    rw [FuncFrame.local?, ← typed.locals, List.getElem?_map] at declared
    obtain ⟨v, found, type⟩ := Option.map_eq_some_iff.1 declared
    simp only [found]
    rw [List.append_nil] at typed
    exact safe_push typed type
  | setLocal index declared =>
    refine safe_plain_of_simple (by decide) ?_
    simp only [simple]
    rw [indexArg_eq index, pure_bind, List.append_nil]
    refine (safe_pop typed).bind fun v b popped => ?_
    exact safe_setLocal (popped.1 ▸ declared) popped.2
  | teeLocal index declared =>
    refine safe_plain_of_simple (by decide) ?_
    simp only [simple]
    rw [indexArg_eq index, pure_bind]
    refine (safe_pop typed).bind fun v b popped =>
      (safe_push popped.2 popped.1).bind fun _ c typed => ?_
    exact safe_setLocal (popped.1 ▸ declared) typed
  | getGlobal index declared =>
    refine safe_plain_of_simple (by decide) ?_
    refine safe_global inScope index declared typed.toKept fun address g here valtype _ => ?_
    obtain ⟨v, found, keeps⟩ := typed.store.globals _ _ here
    rw [List.append_nil] at typed
    exact Safe.get (Safe.found found
      (safe_push typed ((keeps (values _ _ here)).trans valtype)))
  | setGlobal index declared =>
    refine safe_plain_of_simple (by decide) ?_
    refine safe_global inScope index declared typed.toKept fun address g here _ mutable => ?_
    refine (safe_pop typed).bind fun v b popped => ?_
    obtain ⟨type, typed⟩ := popped
    obtain ⟨w, found, -⟩ := typed.store.globals _ _ here
    obtain ⟨s, runs, evolves⟩ := Evolves.assign found (mutable rfl) v
    rw [List.append_nil]
    exact safe_onStore runs (typed.evolve evolves)
  | br index label =>
    simp only [plain]
    rw [indexArg_eq index, pure_bind]
    rw [← List.append_assoc] at typed
    exact safe_branch inScope label typed _
  | brIf index label =>
    simp only [plain]
    rw [← List.append_assoc] at typed
    refine (safe_popI32 typed).bind fun condition b typed => ?_
    split_ifs
    · exact typed
    · rw [indexArg_eq index, pure_bind]
      exact safe_branch inScope label typed _
  | brTable default labels =>
    simp only [plain]
    rw [← List.append_assoc, ← List.append_assoc] at typed
    refine (safe_popI32 typed).bind fun selector b typed => ?_
    have some_ : args.isEmpty = false := by simpa using default
    have bound : min selector.toNat (args.length - 1) < args.length := by
      have := List.length_pos_iff.2 default
      omega
    obtain ⟨depth, position, label⟩ := labels _ (List.getElem_mem bound)
    have index : args[min selector.toNat (args.length - 1)]?.bind position? = some depth := by
      rw [List.getElem?_eq_getElem bound]
      exact position
    simp only [some_, Bool.false_eq_true, if_false]
    rw [indexArg_eq index, pure_bind]
    exact safe_branch inScope label typed _
  | ret =>
    simp only [plain]
    rw [← List.append_assoc] at typed
    refine (safe_popN typed inScope.returns).bind fun vs b popped => ?_
    exact ⟨popped.2.toKept, popped.1⟩
  | currentMemory memory =>
    refine safe_plain_of_simple (by decide) ?_
    refine safe_memory inScope memory typed.toKept fun address m here => ?_
    rw [List.append_nil] at typed
    exact safe_push typed (Value.type_ofInt _ _)
  | growMemory memory =>
    refine safe_plain_of_simple (by decide) ?_
    refine safe_memoryAddress inScope memory typed.toKept fun address m here => ?_
    refine (safe_popI32 typed).bind fun delta b typed => ?_
    obtain ⟨now, here⟩ := typed.store.memories _ _ here
    obtain ⟨previous, s, runs, evolves⟩ := Evolves.growMemory here delta.toNat
    have grown : Safe stops (fun _ c => Typed start frame.locals base c)
        (onStore (Store.growMemory address delta.toNat) b) :=
      safe_onStore runs (typed.evolve evolves)
    exact grown.bind fun v c typed => safe_push typed (Value.type_ofInt _ _)

end

end WasmEngine.Structured
