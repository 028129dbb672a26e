import WasmEngine.Proofs.Machine.Sequences
import WasmEngine.Proofs.Machine.Soundness

/-!
# Calls from outside

A function of a typed store, called with as many arguments as it declares, returns values of its
result types unless the call stops in a permitted way.  A call only changes what code may change, so
that the store stays fit for the next one.
-/

/-! ## The machine refines structured evaluation

The machine walks frames one instruction at a time, and `eval` recurs on the syntax.  On every
function they come to the same results, faults and stores (`runs_iff_evaluates`).
-/

namespace WasmEngine.Structured

open Stack Outcome

variable {σ S : Type} {env : Environment σ} {fuel : Nat}

/-- What a computation of a function comes to, with the store and the world after it. -/
def Result (r : EStateM.Result Halt S (List Value)) (view : S → Store × σ)
    (outcome : Except Fault (List Value)) (after : Store × σ) : Prop :=
  match r with
  | .ok vs s => outcome = .ok vs ∧ view s = after
  | .error (.fault e) s => outcome = .error e ∧ view s = after
  | .error .outOfFuel _ => False

/-- The machine comes to an end on a function. -/
def Runs (env : Environment σ) (f : Func) (owner : Nat) (type : FuncType) (args : List Value)
    (before : Store × σ) (outcome : Except Fault (List Value)) (after : Store × σ) : Prop :=
  ∃ fuel, Result (Exec.runFunction env fuel f owner type args ⟨before.1, .empty, [], before.2⟩)
    (fun x => (x.store, x.world)) outcome after

/-- The evaluation of a function comes to an end. -/
def Evaluates (env : Environment σ) (f : Func) (owner : Nat) (type : FuncType)
    (args : List Value) (before : Store × σ) (outcome : Except Fault (List Value))
    (after : Store × σ) : Prop :=
  ∃ fuel, Result (evalFunction env fuel f owner type args before) id outcome after

/-- The results at the end of a run. -/
def finish (type : FuncType) : Exec σ (List Value) := do
  let results ← Exec.onStack (Stack.popTypes type.result)
  let stack := (← get).stack
  if stack.entries.isEmpty then return results else Exec.fail (.leftover stack.size)

/-- A call of a function runs the machine from its entry. -/
theorem runFunction_eq (env : Environment σ) (fuel : Nat) (f : Func) (owner : Nat)
    (type : FuncType) (args : List Value) (x : Execution σ) :
    Exec.runFunction env fuel f owner type args x =
      match runFrom env (Exec.enterFunction env.maxDepth f owner type args) x fuel with
      | .ok _ y => finish type y
      | .error e y => .error e y := by
  simp only [Exec.runFunction, runFrom, bind, EStateM.bind]
  cases Exec.enterFunction env.maxDepth f owner type args x with
  | error e y => rfl
  | ok _ y =>
    dsimp only
    cases Exec.run env fuel y <;> rfl

/-- As many results as declared are all that is left. -/
theorem finish_eq {type : FuncType} {vs : List Value} (count : vs.length = type.result.length)
    (store : Store) (world : σ) :
    ∃ s, finish type ⟨store, stacked [] vs, [], world⟩ =
      match popTypes type.result (stacked [] vs) with
      | .ok results _ => .ok results ⟨store, s, [], world⟩
      | .error e _ => .error (.fault e) ⟨store, s, [], world⟩ := by
  cases taken : popTypes type.result (stacked [] vs) with
  | error e s =>
    exact ⟨s, bind_error (onStack_error taken)⟩
  | ok results s =>
    refine ⟨s, (bind_ok (onStack_ok taken)).trans ?_⟩
    have empty : s.entries = [] := by
      have length := length_of_popTypesOnto taken
      simp only [stacked, List.length_append, List.length_reverse, List.length_map, List.length_nil,
        count] at length
      exact List.eq_nil_of_length_eq_zero (by omega)
    simp only [bind, EStateM.bind, run_get, empty]
    rfl

theorem evalFunction_eq (env : Environment σ) (fuel : Nat) (f : Func) (owner : Nat)
    (type : FuncType) (args : List Value) (before : Store × σ) :
    evalFunction env fuel f owner type args before =
      match function env (eval env fuel) 0 f owner type args before with
      | .ok vs after =>
        match popTypes type.result (stacked [] vs) with
        | .ok results _ => .ok results after
        | .error e _ => .error (.fault e) after
      | .error e after => .error e after := by
  simp only [evalFunction, bind, EStateM.bind]
  cases function env (eval env fuel) 0 f owner type args before with
  | error e after => rfl
  | ok vs after =>
    have alone : stackOf vs = stacked [] vs := by simp [stackOf, stacked]
    dsimp only
    rw [alone]
    cases popTypes type.result (stacked [] vs) <;> rfl

section

variable {f : Func} {owner : Nat} {type : FuncType} {args : List Value} {before : Store × σ}

/-- A run with enough fuel ends as an evaluation does that does not run out of fuel. -/
theorem exists_steps (outcome : Except Fault (List Value)) (after : Store × σ)
    (ended : ∀ s, function env (eval env fuel) 0 f owner type args before ≠
      .error .outOfFuel s) :
    ∃ steps, ∀ k, Result (Exec.runFunction env (steps + k) f owner type args
        ⟨before.1, .empty, [], before.2⟩) (fun x => (x.store, x.world)) outcome after ↔
      Result (evalFunction env fuel f owner type args before) id outcome after := by
  have simulates := simulates_function (follows env fuel) f owner type args
    ⟨before.1, .empty, [], before.2⟩
  simp only [runFunction_eq, evalFunction_eq]
  simp only [List.length_nil] at simulates
  cases evaluates : function env (eval env fuel) 0 f owner type args before with
  | ok vs s =>
    rw [evaluates] at simulates
    obtain ⟨y, ⟨count, rfl⟩, steps, reaches⟩ := simulates
    refine ⟨steps, fun k => ?_⟩
    obtain ⟨rest, finishes⟩ := finish_eq count s.1 s.2
    rw [reaches k, run_nil k rfl]
    dsimp only
    have nothing : Stack.empty.entries = [] := rfl
    rw [nothing, finishes]
    cases popTypes type.result (stacked [] vs) <;> rfl
  | error e s =>
    rw [evaluates] at simulates
    cases e with
    | fault e =>
      obtain ⟨steps, y, ends, same⟩ := simulates
      refine ⟨steps, fun k => ?_⟩
      have stays := runFrom_stable (Nat.le_add_right steps k) (by
        rw [ends]
        rintro ⟨z, h⟩
        cases h)
      rw [stays, ends]
      simp only [Result, same]
    | outOfFuel => exact absurd evaluates (ended s)

/-- A run that ends with so much fuel ends the evaluation with as much. -/
theorem exhausted_of_eval {s : Store × σ}
    (exhausted : function env (eval env fuel) 0 f owner type args before = .error .outOfFuel s) :
    Exhausted (runFrom env (Exec.enterFunction env.maxDepth f owner type args)
      ⟨before.1, .empty, [], before.2⟩ fuel) := by
  have simulates := simulates_function (follows env fuel) f owner type args
    ⟨before.1, .empty, [], before.2⟩
  simp only [List.length_nil, exhausted] at simulates
  exact simulates

end

/-- What the machine comes to on a function, its evaluation comes to. -/
theorem evaluates_of_runs {f : Func} {owner : Nat} {type : FuncType} {args : List Value}
    {before : Store × σ} {outcome : Except Fault (List Value)} {after : Store × σ}
    (runs : Runs env f owner type args before outcome after) :
    Evaluates env f owner type args before outcome after := by
  obtain ⟨fuel, runs⟩ := runs
  have ended : ¬ Exhausted (runFrom env (Exec.enterFunction env.maxDepth f owner type args)
      ⟨before.1, .empty, [], before.2⟩ fuel) := by
    rintro ⟨y, out⟩
    rw [runFunction_eq, out] at runs
    exact runs
  obtain ⟨steps, same⟩ := exists_steps outcome after fun s out => ended (exhausted_of_eval out)
  have more : Exec.runFunction env (steps + fuel) f owner type args
      ⟨before.1, .empty, [], before.2⟩ =
        Exec.runFunction env fuel f owner type args ⟨before.1, .empty, [], before.2⟩ := by
    rw [runFunction_eq, runFunction_eq, runFrom_stable (Nat.le_add_left fuel steps) ended]
  exact ⟨fuel, (same fuel).1 (more ▸ runs)⟩

/-- **The machine refines structured evaluation**: it comes to a result or a fault, with a store and
a world, if and only if the evaluation does. -/
theorem runs_iff_evaluates (env : Environment σ) (f : Func) (owner : Nat) (type : FuncType)
    (args : List Value) (before : Store × σ) (outcome : Except Fault (List Value))
    (after : Store × σ) :
    Runs env f owner type args before outcome after ↔
      Evaluates env f owner type args before outcome after := by
  constructor
  · exact evaluates_of_runs
  · rintro ⟨fuel, evaluates⟩
    have ended : ∀ s, function env (eval env fuel) 0 f owner type args before ≠
        .error .outOfFuel s := by
      intro s out
      rw [evalFunction_eq, out] at evaluates
      exact evaluates
    obtain ⟨steps, same⟩ := exists_steps outcome after ended
    exact ⟨steps + 0, (same 0).2 evaluates⟩

end WasmEngine.Structured

/-! ## Calls of typed functions -/

namespace WasmEngine.Structured

open Stack Outcome Typing

variable {σ : Type} {env : Environment σ} {offered : FuncType → Nat → Prop} {start : Store}

/-- A call that ended did so with values of the types or in a permitted way, in a store that
evolved. -/
def Ends (env : Environment σ) (offered : FuncType → Nat → Prop) (start : Store)
    (ts : List Valtype) : EStateM.Result Halt (Store × σ) (List Value) → Prop
  | .error .outOfFuel _ => True
  | r => Yields env offered start (fun vs => vs.map Value.type = ts) r

/-- What a run yields are values of the types of its results. -/
theorem Yields.ends {ts : List Valtype} {r : EStateM.Result Halt (Store × σ) (List Value)}
    (yields : Yields env offered start (fun vs => vs.map Value.type = ts) r) :
    Ends env offered start ts r := by
  match r, yields with
  | .ok _ _, yields => exact yields
  | .error (.fault _) _, yields => exact yields
  | .error .outOfFuel _, _ => trivial

/-- Arguments are popped by their own types, in order. -/
theorem popTypes_stackOf (vs : List Value) :
    popTypes (vs.map Value.type) (stackOf vs) = .ok vs (stackOf []) := by
  have taken := popTypesOnto_stackOf [] vs []
  rwa [List.nil_append, List.append_nil] at taken

/-- The results of a checked function have its types already. -/
theorem yields_evalFunction (storeTyped : StoreTyped offered start) (honest : Honest env offered)
    {f : Func} {owner : Nat} {type : FuncType}
    (checked : FunctionTyped offered start ⟨type, .wasm f owner⟩) {args : List Value}
    (types : args.map Value.type = type.args) {s : Store × σ} (evolves : Evolves start s.1)
    (fuel : Nat) :
    Yields env offered start (fun vs => vs.map Value.type = type.result)
      (evalFunction env fuel f owner type args s) := by
  have yields := yields_function (sound_eval storeTyped honest fuel) checked 0 types evolves
  rw [evalFunction_eq]
  cases ends : function env (eval env fuel) 0 f owner type args s with
  | error h after =>
    rw [ends] at yields
    exact yields
  | ok vs after =>
    rw [ends] at yields
    obtain ⟨types, evolves⟩ := yields
    have popped : popTypes type.result (stacked [] vs) = .ok vs (stackOf []) := by
      rw [← stackOf_eq_stacked, ← types, popTypes_stackOf]
    simp only [popped]
    exact ⟨types, evolves⟩

/-- A run that ended is an evaluation. -/
theorem exists_evalFunction {f : Func} {owner fuel : Nat} {type : FuncType} {args : List Value}
    {s : Store × σ} {r : EStateM.Result Halt (Store × σ) (List Value)}
    (runs : onState (fun x => (x.store, x.world))
      (Exec.runFunction env fuel f owner type args ⟨s.1, .empty, [], s.2⟩) = r)
    (ended : ∀ after, r ≠ .error .outOfFuel after) :
    ∃ fuel, evalFunction env fuel f owner type args s = r := by
  have evaluates : ∀ outcome after, Runs env f owner type args s outcome after →
      ∃ fuel, Result (evalFunction env fuel f owner type args s) id outcome after :=
    fun outcome after => evaluates_of_runs
  subst runs
  cases machine : Exec.runFunction env fuel f owner type args ⟨s.1, .empty, [], s.2⟩ with
  | ok vs x =>
    obtain ⟨fuel, result⟩ := evaluates (.ok vs) (x.store, x.world)
      ⟨fuel, by rw [machine]; exact ⟨rfl, rfl⟩⟩
    refine ⟨fuel, ?_⟩
    match evalFunction env fuel f owner type args s, result with
    | .ok _ _, ⟨rfl, rfl⟩ => rfl
  | error h x =>
    cases h with
    | outOfFuel => exact absurd (by rw [machine]; rfl) (ended (x.store, x.world))
    | fault e =>
      obtain ⟨fuel, result⟩ := evaluates (.error e) (x.store, x.world)
        ⟨fuel, by rw [machine]; exact ⟨rfl, rfl⟩⟩
      refine ⟨fuel, ?_⟩
      match evalFunction env fuel f owner type args s, result with
      | .error (.fault _) _, ⟨rfl, rfl⟩ => rfl

/-- The arguments of a call from outside at the types of the parameters. -/
def castArgs (args : List Value) (type : FuncType) : List Value :=
  (args.zip type.args).map fun p => p.1.cast p.2

/-- Arguments are cast to the types of the parameters. -/
theorem types_castArgs {args : List Value} {type : FuncType}
    (count : args.length = type.args.length) :
    (castArgs args type).map Value.type = type.args := by
  simp only [castArgs, List.map_map, Function.comp_def, Value.type_cast]
  exact List.map_snd_zip (Nat.le_of_eq count.symm)

section

variable {address fuel : Nat} {args : List Value} {s : Store × σ} {type : FuncType}

/-- Invoking a host function calls the host with the arguments cast to its parameters. -/
theorem invoke_host {handle : Nat} (found : s.1.func address = .ok ⟨type, .host handle⟩)
    (count : args.length = type.args.length) :
    invoke env fuel address args s =
      match env.call handle (castArgs args type) s.2 with
      | .ok results w => .ok (Exec.castResults results type) (s.1, w)
      | .error e w => .error e (s.1, w) := by
  simp only [invoke, found, count, ne_eq, not_true_eq_false, if_false]
  rfl

/-- Invoking a function of a module runs it with the arguments cast to its parameters. -/
theorem invoke_wasm {f : Func} {owner : Nat}
    (found : s.1.func address = .ok ⟨type, .wasm f owner⟩)
    (count : args.length = type.args.length) :
    invoke env fuel address args s =
      onState (fun x => (x.store, x.world)) (Exec.runFunction env fuel f owner type
        (castArgs args type) ⟨s.1, .empty, [], s.2⟩) := by
  simp only [invoke, found, count, ne_eq, not_true_eq_false, if_false]
  rw [castArgs]
  cases Exec.runFunction env fuel f owner type _ ⟨s.1, .empty, [], s.2⟩ <;> rfl

end

/-- A call from outside, in a store that evolved from a typed one. -/
theorem ends_invoke (storeTyped : StoreTyped offered start) (honest : Honest env offered)
    {address : Nat} {callee : FuncInstance} (here : start.func address = .ok callee)
    {args : List Value} (count : args.length = callee.type.args.length) {s : Store × σ}
    (evolves : Evolves start s.1) (fuel : Nat) :
    Ends env offered start callee.type.result (invoke env fuel address args s) := by
  have checked := storeTyped.functions address callee here
  obtain ⟨type, code⟩ := callee
  have found : s.1.func address = .ok ⟨type, code⟩ := (evolves.functions address).trans here
  have types : (castArgs args type).map Value.type = type.args := types_castArgs count
  cases code with
  | host handle =>
    have yields := yields_host honest checked (castArgs args type) evolves s.2
    rw [invoke_host found count]
    cases ends : env.call handle (castArgs args type) s.2 with
    | ok vs w =>
      rw [ends] at yields
      exact ⟨types_castResults yields.1, yields.2⟩
    | error h w =>
      rw [ends] at yields
      exact Yields.ends (r := .error h (s.1, w)) yields
  | wasm f owner =>
    rw [invoke_wasm found count]
    by_cases ended : ∀ after, onState (fun x => (x.store, x.world)) (Exec.runFunction env fuel f
        owner type (castArgs args type) ⟨s.1, .empty, [], s.2⟩) ≠ .error .outOfFuel after
    · obtain ⟨fuel, evaluates⟩ := exists_evalFunction rfl ended
      rw [← evaluates]
      exact (yields_evalFunction storeTyped honest checked types evolves fuel).ends
    · obtain ⟨after, out⟩ := not_forall_not.1 ended
      rw [out]
      trivial

/-- A call from outside, whatever it calls and however it ends, leaves the store fit for the next. -/
theorem evolves_of_invoke (storeTyped : StoreTyped offered start) (honest : Honest env offered)
    {address fuel : Nat} {args : List Value} {s after : Store × σ} (evolves : Evolves start s.1)
    (ends : (∃ vs, invoke env fuel address args s = .ok vs after) ∨
      ∃ e, invoke env fuel address args s = .error (.fault e) after) :
    Evolves start after.1 := by
  cases here : start.func address with
  | error e =>
    have missing : s.1.func address = .error e := (evolves.functions address).trans here
    have stays : invoke env fuel address args s = .error (.fault e) s := by
      simp only [invoke, missing]
    rw [stays] at ends
    obtain ⟨_, ⟨⟩⟩ | ⟨_, ⟨⟩⟩ := ends
    exact evolves
  | ok callee =>
    have found : s.1.func address = .ok callee := (evolves.functions address).trans here
    by_cases count : args.length = callee.type.args.length
    · have typed := ends_invoke storeTyped honest here count evolves fuel
      obtain ⟨vs, ends⟩ | ⟨e, ends⟩ := ends
      · rw [ends] at typed
        exact typed.2
      · rw [ends] at typed
        exact typed.2
    · have stays : invoke env fuel address args s =
          .error (.fault (.arityMismatch address args.length callee.type.args.length)) s := by
        simp only [invoke, found, ne_eq, count, not_false_eq_true, if_true]
      rw [stays] at ends
      obtain ⟨_, ⟨⟩⟩ | ⟨_, ⟨⟩⟩ := ends
      exact evolves

end WasmEngine.Structured
