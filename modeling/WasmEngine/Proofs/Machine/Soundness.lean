import WasmEngine.Proofs.Machine.SafeInstructions
import WasmEngine.Proofs.Machine.Sequences

/-!
# Checked code is safe

The evaluation of a checked sequence ends with operands of the types that the checker computed, or
with a branch or return that carries what its target expects.  The only ways to stop are traps, too
deep a nesting, failures of the embedding, and fuel (`sound_eval`).
-/

namespace WasmEngine.Structured

open Stack Outcome Typing

variable {σ : Type}

/-- How a run of checked code may stop. -/
inductive Permitted (env : Environment σ) (offered : FuncType → Nat → Prop) : Halt → Prop
  | outOfFuel : Permitted env offered .outOfFuel
  | trap (kind : Trap) : Permitted env offered (.fault (.trap kind))
  | overflow : Permitted env offered (.fault .callStackOverflow)
  | host {type : FuncType} {handle : Nat} {args : List Value} {w w' : σ} {h : Halt}
      (known : offered type handle) (fails : env.call handle args w = .error h w') :
      Permitted env offered h

/-- A permitted stop in a store that evolved from the one at the start. -/
def Stops (env : Environment σ) (offered : FuncType → Nat → Prop) (start : Store) (h : Halt)
    (s : Store) : Prop := Permitted env offered h ∧ Evolves start s

/-- The functions of the embedding return as many values as they declare. -/
def Honest (env : Environment σ) (offered : FuncType → Nat → Prop) : Prop :=
  ∀ type handle, offered type handle → ∀ args w vs w', env.call handle args w = .ok vs w' →
    vs.length = type.result.length

/-- A call ends with results of which a property holds, or stops in a permitted way. -/
def Yields (env : Environment σ) (offered : FuncType → Nat → Prop) (start : Store)
    (p : List Value → Prop) : EStateM.Result Halt (Store × σ) (List Value) → Prop
  | .ok vs s => p vs ∧ Evolves start s.1
  | .error h s => Stops env offered start h s.1

variable {env : Environment σ} {offered : FuncType → Nat → Prop} {start : Store}

/-- Traps are among the permitted ways to stop. -/
theorem traps_stop (kind : Trap) (s : Store) (evolves : Evolves start s) :
    Stops env offered start (.fault (.trap kind)) s := ⟨.trap kind, evolves⟩

/-- Sequences that are checked are safe. -/
def Sound (env : Environment σ) (offered : FuncType → Nat → Prop) (start : Store)
    (sequence : Scope → List Node → Eval σ Completion) : Prop :=
  ∀ {ctx frame scope nodes ts us}, InScope start ctx frame scope →
    Node.EveryIn Node.Explicit nodes → SequenceHasType ctx frame nodes ts us →
    ∀ a, Typed start frame.locals ts a →
      Safe (Stops env offered start) (Completes start frame us) (sequence scope nodes a)

/-! ## Constructs -/

section

variable {stops : Halt → Store → Prop} {frame : FuncFrame} {us : List Valtype}
  {a : Activation σ} {body : Eval σ Completion}

/-- A construct whose body is safe on no operands, if branches to its label carry its results. -/
theorem safe_construct {base : List Valtype} (carried : List Valtype) (typed : Typed start frame.locals base a)
    (safe : ∀ b, Typed start frame.locals [] b → Safe stops (fun c b =>
      Completes start (frame.addLabel carried) us c b ∧
        ∀ vs, c = .branch 0 vs → vs.map Value.type = us) (body b)) :
    Safe stops (Completes start frame (base ++ us)) (construct us.length body a) := by
  refine Safe.get ?_
  have inside : Typed start frame.locals [] { a with operands := [] } := typed.below rfl
  refine (safe _ inside).bind fun c b ⟨completes, arrives⟩ => ?_
  match c, completes, arrives with
  | .normal, completes, _ =>
    have operands : Typed start frame.locals ([] ++ us) b := completes
    refine (safe_popN operands rfl).bind fun vs d ⟨types, left⟩ => ?_
    exact ⟨⟨left.store, left.locals⟩, by rw [List.map_append, typed.operands, types]⟩
  | .branch 0 vs, ⟨kept, _⟩, arrives =>
    exact ⟨⟨kept.store, kept.locals⟩, by rw [List.map_append, typed.operands, arrives vs rfl]⟩
  | .branch (depth + 1) vs, completes, _ => exact completes
  | .ret vs, completes, _ => exact completes

/-- A loop is safe if its body is, and it never ends by a branch to its own label. -/
theorem safe_repeated (exhausted : ∀ s, Evolves start s → stops .outOfFuel s)
    (safe : ∀ b, Typed start frame.locals [] b →
      Safe stops (Completes start (frame.addLabel []) us) (body b)) (times : Nat) (b : Activation σ)
    (typed : Typed start frame.locals [] b) :
    Safe stops (fun c b => Completes start (frame.addLabel []) us c b ∧
      ∀ vs, c = .branch 0 vs → vs.map Value.type = us) (repeated body times b) := by
  induction times generalizing b with
  | zero => exact exhausted _ typed.store
  | succ times ih =>
    refine (safe b typed).bind fun c d completes => ?_
    match c, completes with
    | .normal, completes => exact ⟨completes, nofun⟩
    | .branch 0 vs, ⟨kept, _⟩ => exact ih _ ⟨⟨kept.store, kept.locals⟩, rfl⟩
    | .branch (depth + 1) vs, completes => exact ⟨completes, nofun⟩
    | .ret vs, completes => exact ⟨completes, nofun⟩

end

theorem safe_enter {α : Type} {post : α → Activation σ → Prop} {f : Unit → Eval σ α}
    {maxDepth depth : Nat} {a : Activation σ} (evolves : Evolves start a.store)
    (rest : Safe (Stops env offered start) post (f () a)) :
    Safe (Stops env offered start) post ((enter maxDepth depth >>= f) a) := by
  have here := enter_eq maxDepth depth a
  split_ifs at here
  · rw [bind_error here]
    exact ⟨.overflow, evolves⟩
  · rw [bind_ok here]
    exact rest

/-! ## Calls -/

/-- Results are cast to the types of the results. -/
theorem types_castResults {vs : List Value} {type : FuncType}
    (count : vs.length = type.result.length) :
    (Exec.castResults vs type).map Value.type = type.result := by
  simp only [Exec.castResults, List.map_map, Function.comp_def, Value.type_cast]
  exact List.map_snd_zip (Nat.le_of_eq count.symm)

variable {sequence : Scope → List Node → Eval σ Completion}

/-- A checked function, called with arguments of its types. -/
theorem yields_function (sound : Sound env offered start sequence) {f : Func} {owner : Nat}
    {type : FuncType} (checked : FunctionTyped offered start ⟨type, .wasm f owner⟩) (depth : Nat)
    {args : List Value} (types : args.map Value.type = type.args) {s : Store × σ}
    (evolves : Evolves start s.1) :
    Yields env offered start (fun vs => vs.map Value.type = type.result)
      (function env sequence depth f owner type args s) := by
  obtain ⟨ctx, m, instance_, held, declared, body, explicit⟩ := checked
  have declared : type = ctx.funcType f.signature := declared
  unfold FunctionHasType at body
  rw [← declared] at body
  have inScope : InScope start ctx
      ⟨f.name.value, type.args ++ f.locals.map Param.valtype, [type.result], type.result⟩
      ⟨owner, type.result.length, [type.result.length], depth + 1⟩ :=
    ⟨rfl, rfl, m, instance_, held⟩
  have typed : Typed start (type.args ++ f.locals.map Param.valtype) []
      ⟨s.1, s.2, startingLocals f args, []⟩ := by
    refine ⟨⟨evolves, ?_⟩, rfl⟩
    simp [startingLocals, types, Function.comp_def]
  have safe : Safe (Stops env offered start)
      (fun vs b => vs.map Value.type = type.result ∧ Evolves start b.store)
      (functionBody env sequence depth f owner type
        ⟨s.1, s.2, startingLocals f args, []⟩) := by
    refine safe_enter evolves ((sound inScope explicit body _ typed).bind fun c b completes => ?_)
    match c, completes with
    | .normal, completes =>
      have operands : Typed start (type.args ++ f.locals.map Param.valtype) ([] ++ type.result) b :=
        completes
      exact (safe_popN operands rfl).mono fun vs d ⟨types, left⟩ => ⟨types, left.store⟩
    | .branch depth vs, ⟨kept, label⟩ =>
      have types : type.result = vs.map Value.type := by
        cases depth with
        | zero => exact Option.some.inj label
        | succ depth => cases label
      exact ⟨types.symm, kept.store⟩
    | .ret vs, ⟨kept, types⟩ => exact ⟨types, kept.store⟩
  rw [function_eq]
  cases ends : functionBody env sequence depth f owner type
      ⟨s.1, s.2, startingLocals f args, []⟩ with
  | ok vs b =>
    rw [ends] at safe
    exact safe
  | error h b =>
    rw [ends] at safe
    exact safe

section

variable {locals ts : List Valtype} {a : Activation σ}

theorem safe_outside {f : EStateM Halt (Store × σ) (List Value)} {p : List Value → Prop}
    (typed : Typed start locals ts a) (yields : Yields env offered start p (f (a.store, a.world))) :
    Safe (Stops env offered start) (fun vs b => p vs ∧ Typed start locals ts b) (outside f a) := by
  rw [outside_eq]
  cases ends : f (a.store, a.world) with
  | ok vs s =>
    rw [ends] at yields
    exact ⟨yields.1, ⟨yields.2, typed.locals⟩, typed.operands⟩
  | error h s =>
    rw [ends] at yields
    exact yields

/-- A function of the embedding returns as many values as it declares, or fails on its own. -/
theorem yields_host (honest : Honest env offered) {type : FuncType} {handle : Nat}
    (known : offered type handle) (args : List Value) {s : Store} (evolves : Evolves start s)
    (w : σ) :
    Yields env offered start (fun vs => vs.length = type.result.length)
      (match env.call handle args w with
        | .ok results world => .ok results (s, world)
        | .error e world => .error e (s, world)) := by
  cases ends : env.call handle args w with
  | ok vs w' => exact ⟨honest type handle known args w vs w' ends, evolves⟩
  | error h w' => exact ⟨.host known ends, evolves⟩

/-- A call of a function of the store takes its arguments and leaves its results. -/
theorem safe_call (sound : Sound env offered start sequence) (storeTyped : StoreTyped offered start)
    (honest : Honest env offered) (depth : Nat) {address : Nat} {f : FuncInstance}
    (here : start.func address = .ok f) (typed : Typed start locals (ts ++ f.type.args) a) :
    Safe (Stops env offered start) (fun _ b => Typed start locals (ts ++ f.type.result) b)
      (call env sequence depth address a) := by
  have checked := storeTyped.functions address f here
  refine Safe.get (Safe.found ((typed.store.functions _).trans here) ?_)
  refine (safe_popTypes typed).bind fun args b taken => ?_
  obtain ⟨type, code⟩ := f
  obtain ⟨types, left⟩ := taken
  cases code with
  | host handle =>
    exact (safe_outside left (yields_host honest checked args left.store b.world)).bind
      fun vs c ⟨count, left⟩ => safe_pushAll left (types_castResults count)
  | wasm f owner =>
    exact (safe_outside left (yields_function sound checked depth types left.store)).bind
      fun vs c ⟨types, left⟩ => safe_pushAll left types

end

/-! ## Instructions and sequences -/

variable {ctx : ModuleContext} {frame : FuncFrame} {scope : Scope} {ts us : List Valtype}

/-- Inside a construct the label of the construct is the innermost. -/
theorem InScope.inside (inScope : InScope start ctx frame scope) (carried : List Valtype) :
    InScope start ctx (frame.addLabel carried) (scope.inside carried.length) :=
  ⟨by simp [Scope.inside, FuncFrame.addLabel, inScope.labels], inScope.returns, inScope.owner⟩

theorem safe_instruction (sound : Sound env offered start sequence)
    (storeTyped : StoreTyped offered start) (honest : Honest env offered) (times : Nat)
    (inScope : InScope start ctx frame scope) {node : Node} (explicit : node.Every Node.Explicit)
    (type : HasType ctx frame node ts us) {base : List Valtype} {a : Activation σ}
    (typed : Typed start frame.locals (base ++ ts) a) :
    Safe (Stops env offered start) (Completes start frame (base ++ us))
      (instruction env sequence times scope node a) := by
  cases node with
  | instr id object args memArg =>
    cases object with
    | none => exact safe_plain traps_stop storeTyped.globals inScope type typed
    | some t =>
      cases type with
      | onType listed object memory =>
        exact (safe_onType traps_stop inScope listed object memory explicit.1 typed).bind
          fun _ b typed => typed
  | block label body result =>
    cases type with
    | block inner =>
      rw [List.append_nil] at typed
      refine safe_enter typed.store (safe_construct result.toList typed fun b typed => ?_)
      refine (sound (inScope.inside _) explicit.2 inner b typed).mono fun c d completes =>
        ⟨completes, ?_⟩
      rintro vs rfl
      exact (Option.some.inj completes.2).symm
  | loop label result body =>
    cases type with
    | loop inner =>
      rw [List.append_nil] at typed
      refine safe_enter typed.store (safe_construct [] typed ?_)
      exact safe_repeated (fun s evolves => ⟨.outOfFuel, evolves⟩)
        (fun b typed => sound (inScope.inside []) explicit.2 inner b typed) times
  | ifElse label result consequent alternate =>
    cases type with
    | ifElse whenTrue whenFalse =>
      refine (safe_popI32 typed).bind fun condition b typed =>
        safe_enter typed.store (safe_construct result.toList typed fun c typed => ?_)
      have safe : Safe (Stops env offered start)
          (Completes start (frame.addLabel result.toList) result.toList)
          (sequence (scope.inside result.toList.length)
            (if condition = 0 then alternate else consequent) c) := by
        split_ifs
        · exact sound (inScope.inside _) explicit.2.2 whenFalse c typed
        · exact sound (inScope.inside _) explicit.2.1 whenTrue c typed
      refine safe.mono fun c d completes => ⟨completes, ?_⟩
      rintro vs rfl
      exact (Option.some.inj completes.2).symm
  | call index =>
    cases type with
    | call resolved declared =>
      refine (safe_currentInstance inScope typed.toKept).bind fun m b ⟨held, same⟩ => ?_
      subst same
      obtain ⟨address, f, found, here, rfl⟩ := held.func declared
      refine Safe.found (Index.resolved_eq_ok resolved) (Safe.found found ?_)
      exact (safe_call sound storeTyped honest scope.depth here typed).bind fun _ c typed => typed
  | callIndirect signature =>
    cases type with
    | callIndirect table =>
      obtain ⟨sig, rfl⟩ : signature.IsInline := explicit.2
      rw [← List.append_assoc] at typed
      refine (safe_currentInstance inScope typed.toKept).bind fun m b ⟨held, same⟩ => ?_
      subst same
      obtain ⟨address, t, found, here⟩ := held.table table
      refine Safe.found rfl (Safe.found found ((safe_popI32 typed).bind fun i c typed => ?_))
      refine Safe.get (Safe.found ((typed.store.tables _).trans here) ?_)
      cases slot : t.get i.toNat with
      | error e =>
        obtain rfl := Table.eq_of_get_error slot
        exact traps_stop _ _ typed.store
      | ok callee =>
        obtain ⟨f, here⟩ := storeTyped.tables _ _ here callee (Table.mem_of_get slot)
        refine Safe.found rfl (Safe.get (Safe.found ((typed.store.functions _).trans here) ?_))
        by_cases same : f.type = sig.funcType
        · rw [if_pos same]
          have type : ctx.funcType (.inline sig) = f.type := same.symm
          rw [type] at typed ⊢
          exact (safe_call sound storeTyped honest scope.depth here typed).bind
            fun _ c typed => typed
        · rw [if_neg same]
          exact traps_stop _ _ typed.store
  | _ => cases type

/-- **Checked code is safe**: in a typed store, the evaluation of every checked sequence ends with
what its type says or stops in a permitted way. -/
theorem sound_eval (storeTyped : StoreTyped offered start) (honest : Honest env offered)
    (fuel : Nat) : Sound env offered start (eval env fuel) := by
  induction fuel with
  | zero => exact fun _ _ _ a typed => ⟨.outOfFuel, typed.store⟩
  | succ fuel ih =>
    intro ctx frame scope nodes ts us inScope explicit type a typed
    cases type with
    | nil => exact typed
    | @cons _ node nodes base taken left _ first rest =>
      have observed : Typed start frame.locals (base ++ taken)
          { a with world := env.observe scope.depth (node.instructionName?.getD "") a.world } :=
        ⟨⟨typed.store, typed.locals⟩, typed.operands⟩
      have safe := safe_instruction ih storeTyped honest fuel inScope explicit.1 first observed
      rw [eval_cons]
      cases runs : instruction env (eval env fuel) fuel scope node
          { a with world := env.observe scope.depth (node.instructionName?.getD "") a.world } with
      | error h b =>
        rw [runs] at safe
        exact safe
      | ok c b =>
        rw [runs] at safe
        cases c with
        | normal => exact ih inScope explicit.2 rest b safe
        | branch depth vs => exact safe
        | ret vs => exact safe

end WasmEngine.Structured
