import WasmEngine.Proofs.Machine.Unwinding

/-!
# The machine follows evaluations

Whatever an evaluation of a sequence comes to, the machine comes to the same (`follows`).  The proof
is an induction on the fuel of the evaluation, since loops and calls run sequences that are not part
of the one that runs.
-/

namespace WasmEngine.Structured

open Stack Outcome

variable {σ α β S : Type} {env : Environment σ} {scope : Scope} {site : Site scope}
  {a : Activation σ} {fuel : Nat}

/-! ## Sequences -/

/-- The machine follows the evaluations of sequences with so much fuel.  A branch takes it a step at
least. -/
def Follows (env : Environment σ) (fuel : Nat) : Prop :=
  ∀ ⦃scope : Scope⦄ (site : Site scope) ⦃code : List Node⦄ (a : Activation σ),
    site.frame.code = .ok code →
      let nodes := code.drop site.frame.pc
      Simulates env fuel (pure ()) (site.state a) Activation.view (site.advance nodes.length).Lands
        (eval env fuel scope nodes a) ∧
      ∀ depth vs b, eval env fuel scope nodes a = .ok (.branch depth vs) b →
        ∃ y steps, (site.advance nodes.length).Lands (.branch depth vs) b y ∧
          ∀ k, Exec.run env (steps + 1 + k) (site.state a) = Exec.run env k y

/-- A sequence from its start on. -/
theorem Follows.start (follows : Follows env fuel) {code : List Node}
    (runs : site.frame.code = .ok code) (start : site.frame.pc = 0) (a : Activation σ) :
    Simulates env fuel (pure ()) (site.state a) Activation.view (site.advance code.length).Lands
        (eval env fuel scope code a) ∧
      ∀ depth vs b, eval env fuel scope code a = .ok (.branch depth vs) b →
        ∃ y steps, (site.advance code.length).Lands (.branch depth vs) b y ∧
          ∀ k, Exec.run env (steps + 1 + k) (site.state a) = Exec.run env k y := by
  have here := follows site a runs
  rwa [start, List.drop_zero] at here

/-- A loop runs its body again when the body branches to it, and ends when it does not. -/
theorem repeated_eq (body : Eval σ Completion) (times : Nat) (a : Activation σ) :
    repeated body (times + 1) a =
      match body a with
      | .ok (.branch 0 _) b => repeated body times { b with operands := [] }
      | r => r := by
  simp only [repeated, bind, EStateM.bind]
  cases body a with
  | error e b => rfl
  | ok c b =>
    match c with
    | .normal => rfl
    | .branch 0 vs => rfl
    | .branch (depth + 1) vs => rfl
    | .ret vs => rfl

/-- A loop, which starts again where its frame starts. -/
theorem simulates_repeated {code : List Node} {times : Nat} (follows : Follows env fuel)
    (runs : site.frame.code = .ok code) (start : site.frame.pc = 0)
    (isLoop : site.frame.isLoop = true) (le : times ≤ fuel) (a : Activation σ) :
    Simulates env times (pure ()) (site.state a) Activation.view (site.advance code.length).Lands
      (repeated (eval env fuel scope code) times a) ∧
    ∀ vs b, repeated (eval env fuel scope code) times a ≠ .ok (.branch 0 vs) b := by
  induction times generalizing a with
  | zero => exact ⟨⟨_, run_zero rfl⟩, fun vs b h => nomatch h⟩
  | succ times ih =>
    obtain ⟨simulates, branches⟩ := follows.start runs start a
    rw [repeated_eq]
    cases evaluates : eval env fuel scope code a with
    | error e b =>
      rw [evaluates] at simulates
      exact ⟨simulates.mono le, fun vs c h => nomatch h⟩
    | ok completion b =>
      rw [evaluates] at simulates
      match completion with
      | .normal => exact ⟨simulates.mono le, fun vs c h => nomatch h⟩
      | .ret vs => exact ⟨simulates.mono le, fun vs c h => nomatch h⟩
      | .branch (depth + 1) vs => exact ⟨simulates.mono le, fun vs c h => nomatch h⟩
      | .branch 0 vs =>
        obtain ⟨y, steps, ⟨label, landing⟩, reaches⟩ := branches 0 vs b evaluates
        have carried : vs = [] := by
          rw [site.labels] at label
          simpa [Frame.labelArity, isLoop, eq_comm] using label
        have restarted : y = site.state { b with operands := [] } := by
          rw [Site.landing_advance, carried] at landing
          exact Site.landing_loop isLoop start landing
        obtain ⟨again, never⟩ := ih (by omega) { b with operands := [] }
        exact ⟨(restarted ▸ again).after (m := pure ()) reaches, never⟩

/-! ## Calls -/

theorem lifts_outside_call (handle : Nat) (args : List Value) :
    Lifts site (Exec.onWorld (env.call handle args))
      (outside fun (store, world) =>
        match env.call handle args world with
        | .ok results world => .ok results (store, world)
        | .error e world => .error e (store, world)) := by
  intro a
  simp only [Exec.onWorld, Site.state, outside]
  cases env.call handle args a.world <;> rfl

/-- A function is entered below the bound, and is a call-stack overflow at it. -/
theorem enterFunction_eq (maxDepth : Nat) (f : Func) (owner : Nat) (type : FuncType)
    (args : List Value) (x : Execution σ) :
    Exec.enterFunction maxDepth f owner type args x =
      if maxDepth ≤ x.frames.length then
        .error (.fault .callStackOverflow)
          { x with stack := ⟨.label type.result.length :: x.stack.entries⟩ }
      else
        .ok () ((Site.callee f owner [] type.result.length x.frames x.stack.entries).state
          ⟨x.store, x.world, startingLocals f args, []⟩) := by
  have entered : Exec.enterFunction maxDepth f owner type args x =
      Exec.pushFrame maxDepth
        (.call f owner (startingLocals f args) type.result.length x.frames.length)
        { x with stack := ⟨.label type.result.length :: x.stack.entries⟩ } := rfl
  rw [entered, pushFrame_eq]
  rfl

theorem simulates_onState {m : Exec σ Unit} {x : Execution σ} {view : β → Store × σ}
    {lands : α → Store × σ → Execution σ → Prop} {r : EStateM.Result Halt β α}
    (simulates : Simulates env fuel m x view (fun v s => lands v (view s)) r) :
    Simulates env fuel m x id lands (onState view r) := by
  match r, simulates with
  | .ok _ _, simulates => exact simulates
  | .error (.fault _) _, simulates => exact simulates
  | .error .outOfFuel _, simulates => exact simulates

/-- A function runs its body with its arguments and zeroed locals, and ends with its results. -/
theorem function_eq (sequence : Scope → List Node → Eval σ Completion) (depth : Nat) (f : Func)
    (owner : Nat) (type : FuncType) (args : List Value) (store : Store) (world : σ) :
    function env sequence depth f owner type args (store, world) =
      onState Activation.view (functionBody env sequence depth f owner type
        ⟨store, world, startingLocals f args, []⟩) := by
  simp only [function]
  cases functionBody env sequence depth f owner type
    ⟨store, world, startingLocals f args, []⟩ <;> rfl

/-- A call of a function with a body leaves its results on the stack of the caller. -/
theorem simulates_function (follows : Follows env fuel) (f : Func) (owner : Nat) (type : FuncType)
    (args : List Value) (x : Execution σ) :
    Simulates env fuel (Exec.enterFunction env.maxDepth f owner type args) x id
      (fun vs s y => vs.length = type.result.length ∧
        y = ⟨s.1, stacked x.stack.entries vs, x.frames, s.2⟩)
      (function env (eval env fuel) x.frames.length f owner type args (x.store, x.world)) := by
  let start : Activation σ := ⟨x.store, x.world, startingLocals f args, []⟩
  let site := Site.callee f owner [] type.result.length x.frames x.stack.entries
  have entered := enterFunction_eq env.maxDepth f owner type args x
  have evaluates := enter_eq env.maxDepth x.frames.length start
  rw [function_eq]
  refine simulates_onState ?_
  unfold functionBody
  by_cases deep : env.maxDepth ≤ x.frames.length
  · rw [if_pos deep] at entered evaluates
    rw [bind_error evaluates]
    exact simulates_error entered rfl
  · rw [if_neg deep] at entered evaluates
    rw [bind_ok evaluates]
    refine simulates_then entered ?_
    have runs : site.frame.code = .ok f.body := rfl
    refine (follows.start runs rfl start).1.bind (fun e s failed => ⟨s, bind_error failed, rfl⟩)
      fun completion b y completed lands => ?_
    rw [bind_ok completed]
    match completion, lands with
    | .normal, lands =>
      obtain rfl := lands
      have atEnd : f.body[(site.advance f.body.length).frame.pc]? = none := by
        simp [Site.advance, Frame.advance]
      exact simulates_end runs atEnd
    | .branch depth vs, ⟨label, landing⟩ =>
      rw [Site.landing_advance] at landing
      obtain ⟨rfl, count⟩ : depth = 0 ∧ type.result.length = vs.length := by
        cases depth with
        | zero => exact ⟨rfl, Option.some.inj label⟩
        | succ depth => cases label
      exact simulates_ok rfl ⟨count.symm, Site.landing_zero rfl landing⟩
    | .ret vs, ⟨count, landing⟩ =>
      rw [Site.landing_advance] at landing
      exact simulates_ok rfl ⟨count, Site.landing_zero rfl landing⟩

theorem outside_eq (f : EStateM Halt (Store × σ) α) (a : Activation σ) :
    outside f a = onState (fun s => { a with store := s.1, world := s.2 })
      (f (a.store, a.world)) := by
  unfold outside
  cases f (a.store, a.world) <;> rfl

theorem pushAll_eq (vs : List Value) (a : Activation σ) :
    onOperands (pushAll vs) a = .ok () { a with operands := a.operands ++ vs } := by
  have pushed : pushAll vs (stackOf a.operands) = .ok () (stacked [] (a.operands ++ vs)) := by
    simp [pushAll, run_modify, stacked, stackOf]
  simp [onOperands, pushed, values_stacked]

theorem simulates_call (follows : Follows env fuel) (address : Nat) :
    Simulates env fuel (Exec.call env address) (site.state a) Activation.view
      (fun _ b y => y = site.state b) (call env (eval env fuel) scope.depth address a) := by
  refine simulates_get (simulates_lift (lifts_ofResult _) fun callee b =>
    simulates_lift (lifts_onStack (local_popTypes _)) fun args c => ?_)
  cases callee.code with
  | host handle =>
    exact simulates_lift (lifts_outside_call handle args) fun results d =>
      simulates_of_lifts (lifts_onStack (local_pushAll _))
  | wasm f owner =>
    have called := simulates_function follows f owner callee.type args (site.state c)
    rw [frames_length, ← site.depth] at called
    refine called.bind (fun e s failed => ?_) fun vs s y done ⟨_, there⟩ => ?_
    · exact ⟨_, bind_error ((outside_eq _ c).trans (congrArg _ failed)), rfl⟩
    · have results := (outside_eq _ c).trans (congrArg (onState _) done)
      dsimp only
      rw [bind_ok results, pushAll_eq]
      refine simulates_ok rfl ?_
      simpa [Site.state] using there

namespace Site

section

variable {code body consequent alternate : List Node} {position arity : Nat} {label : Identifier}
  {result : Option Valtype}

/-- The frame of a construct runs the sequence of the construct. -/
theorem child_code (step : Step) (runs : site.frame.code = .ok code) :
    (site.frame.child step arity).code = Frame.follow site.frame.func.name.value code [step] :=
  Frame.follow_append runs

/-- The code of a frame in a block is the body of the block. -/
theorem child_block (runs : site.frame.code = .ok code)
    (at_ : code[position]? = some (.block label body result)) :
    (site.frame.child (.block position) arity).code = .ok body := by
  rw [child_code _ runs]
  simp [Frame.follow, Step.position, at_]

/-- The code of a frame in a loop is the body of the loop. -/
theorem child_loop (runs : site.frame.code = .ok code)
    (at_ : code[position]? = some (.loop label result body)) :
    (site.frame.child (.loop position) arity).code = .ok body := by
  rw [child_code _ runs]
  simp [Frame.follow, Step.position, at_]

/-- The code of a frame in the first branch of a conditional is that branch. -/
theorem child_consequent (runs : site.frame.code = .ok code)
    (at_ : code[position]? = some (.ifElse label result consequent alternate)) :
    (site.frame.child (.consequent position) arity).code = .ok consequent := by
  rw [child_code _ runs]
  simp [Frame.follow, Step.position, at_]

/-- The code of a frame in the second branch of a conditional is that branch. -/
theorem child_alternate (runs : site.frame.code = .ok code)
    (at_ : code[position]? = some (.ifElse label result consequent alternate)) :
    (site.frame.child (.alternate position) arity).code = .ok alternate := by
  rw [child_code _ runs]
  simp [Frame.follow, Step.position, at_]

end

end Site

theorem simulates_instruction (follows : Follows env fuel) {node : Node} {code : List Node}
    {position : Nat} (runs : site.frame.code = .ok code) (at_ : code[position]? = some node) :
    Simulates env fuel (Exec.instruction env position node) (site.state a) Activation.view
      site.Lands (instruction env (eval env fuel) fuel scope node a) := by
  cases node with
  | instr id object args memArg =>
    cases object with
    | some t => exact simulates_normal (simulates_of_lifts (lifts_onType t id args memArg))
    | none => exact simulates_plain id args
  | block label body result =>
    have inner : (site.frame.child (.block position) result.toList.length).code = .ok body :=
      site.child_block runs at_
    refine simulates_enterBlock
      (simulates_construct inner (List.getElem?_eq_none (Nat.le_refl _)) (fun _ _ _ => rfl) ?_)
    exact (follows.start inner rfl _).1
  | loop label result body =>
    have inner :
        (site.inside (.loop position) result.toList.length a.operands).frame.code = .ok body :=
      site.child_loop runs at_
    obtain ⟨loops, never⟩ :=
      simulates_repeated follows inner rfl rfl (Nat.le_refl fuel) { a with operands := [] }
    exact simulates_enterBlock (simulates_construct inner (List.getElem?_eq_none (Nat.le_refl _))
      (fun vs b again => (never vs b again).elim) loops)
  | ifElse label result consequent alternate =>
    refine simulates_lift (lifts_onStack local_popI32) fun condition b => ?_
    by_cases zero : condition = 0
    · simp only [if_pos zero]
      have inner : (site.frame.child (.alternate position) result.toList.length).code =
          .ok alternate := site.child_alternate runs at_
      refine simulates_enterBlock
        (simulates_construct inner (List.getElem?_eq_none (Nat.le_refl _)) (fun _ _ _ => rfl) ?_)
      exact (follows.start inner rfl _).1
    · simp only [if_neg zero]
      have inner : (site.frame.child (.consequent position) result.toList.length).code =
          .ok consequent := site.child_consequent runs at_
      refine simulates_enterBlock
        (simulates_construct inner (List.getElem?_eq_none (Nat.le_refl _)) (fun _ _ _ => rfl) ?_)
      exact (follows.start inner rfl _).1
  | call index =>
    exact simulates_lift lifts_currentInstance fun m b =>
      simulates_lift (lifts_ofResult _) fun i c =>
        simulates_lift (lifts_ofResult _) fun address d =>
          simulates_normal (simulates_call follows address)
  | callIndirect sig =>
    refine simulates_lift lifts_currentInstance fun m b =>
      simulates_lift (lifts_ofResult _) fun expected c =>
        simulates_lift (lifts_ofResult _) fun table d =>
          simulates_lift (lifts_onStack local_popI32) fun element e =>
            simulates_get (simulates_lift (lifts_ofResult _) fun t f =>
              simulates_lift (lifts_ofResult _) fun address g =>
                simulates_get (simulates_lift (lifts_ofResult _) fun callee h => ?_))
    by_cases same : callee.type = expected
    · simp only [if_pos same]
      exact simulates_normal (simulates_call follows address)
    · simp only [if_neg same]
      exact simulates_error rfl rfl
  | _ => exact simulates_error rfl rfl

/-- A step inside the code of a frame runs the instruction at its position, with the frame moved on. -/
theorem step_next {x : Execution σ} {frame : Frame} {outer : List Frame} {code : List Node}
    {node : Node} (runs : frame.code = .ok code) (at_ : code[frame.pc]? = some node) :
    Exec.step env frame outer x =
      Exec.instruction env frame.pc node
        { x with
          frames := frame.advance 1 :: outer
          world := env.observe (outer.length + 1) (node.instructionName?.getD "") x.world } := by
  simp only [Exec.step, bind, EStateM.bind, runs, Exec.ofResult, pure, EStateM.pure, at_]
  rfl

/-- A sequence runs its first instruction and goes on unless that leaves the sequence. -/
theorem eval_cons (fuel : Nat) (scope : Scope) (node : Node) (nodes : List Node)
    (a : Activation σ) :
    eval env (fuel + 1) scope (node :: nodes) a =
      match instruction env (eval env fuel) fuel scope node
          { a with world := env.observe scope.depth (node.instructionName?.getD "") a.world } with
      | .ok .normal b => eval env fuel scope nodes b
      | r => r := by
  simp only [eval, observe, bind, EStateM.bind, run_modify]
  cases instruction env (eval env fuel) fuel scope node
      { a with world := env.observe scope.depth (node.instructionName?.getD "") a.world } with
  | error e b => rfl
  | ok completion b => cases completion <;> rfl

/-- The first instruction of a sequence and those after it. -/
theorem simulates_cons (follows : Follows env fuel) {node : Node} {code nodes : List Node}
    (runs : site.frame.code = .ok code) (here : code.drop site.frame.pc = node :: nodes) :
    ∃ outer, (site.state a).frames = site.frame.withLocals a.locals :: outer ∧
      Simulates env fuel (Exec.step env (site.frame.withLocals a.locals) outer) (site.state a)
        Activation.view (site.advance (nodes.length + 1)).Lands
        (eval env (fuel + 1) scope (node :: nodes) a) := by
  refine ⟨_, rfl, ?_⟩
  have at_ : code[site.frame.pc]? = some node := by
    rw [← List.head?_drop, here]
    rfl
  have next : code.drop (site.advance 1).frame.pc = nodes := by
    have tail := congrArg List.tail here
    rwa [List.tail_drop] at tail
  have depth : scope.depth =
      (site.opened.map (Frame.withLocals a.locals) ++ site.callers).length + 1 := by
    rw [site.depth]
    simp
    omega
  let b : Activation σ :=
    { a with world := env.observe scope.depth (node.instructionName?.getD "") a.world }
  have steps : Exec.step env (site.frame.withLocals a.locals)
      (site.opened.map (Frame.withLocals a.locals) ++ site.callers) (site.state a) =
        Exec.instruction env site.frame.pc node ((site.advance 1).state b) := by
    have runs' : (site.frame.withLocals a.locals).code = .ok code := runs
    rw [step_next runs' at_, ← depth]
    rfl
  have first : Simulates env fuel (Exec.instruction env site.frame.pc node)
      ((site.advance 1).state b) Activation.view (site.advance 1).Lands
      (instruction env (eval env fuel) fuel scope node b) := simulates_instruction follows runs at_
  rw [eval_cons]
  refine simulates_congr steps (first.bind (fun e s failed => ⟨s, by rw [failed], rfl⟩)
    fun completion c y done lands => ?_)
  rw [done]
  match completion, lands with
  | .normal, lands =>
    obtain rfl := lands
    have rest := (follows (site.advance 1) c runs).1
    rw [next, Site.advance_advance, Nat.add_comm 1] at rest
    exact rest
  | .branch depth vs, ⟨label, landing⟩ =>
    rw [Site.landing_advance] at landing
    exact simulates_ok rfl ⟨label, (site.landing_advance ..).trans landing⟩
  | .ret vs, ⟨count, landing⟩ =>
    rw [Site.landing_advance] at landing
    exact simulates_ok rfl ⟨count, (site.landing_advance ..).trans landing⟩

/-- The machine follows every evaluation. -/
theorem follows (env : Environment σ) (fuel : Nat) : Follows env fuel := by
  induction fuel with
  | zero => exact fun scope site code a runs => ⟨⟨_, run_zero rfl⟩, fun depth vs b h => nomatch h⟩
  | succ fuel ih =>
    intro scope site code a runs
    cases here : code.drop site.frame.pc with
    | nil => exact ⟨simulates_ok rfl rfl, fun depth vs b h => nomatch h⟩
    | cons node nodes =>
      obtain ⟨outer, frames, simulates⟩ := simulates_cons ih (a := a) runs here
      refine ⟨simulates.step frames, fun depth vs b branches => ?_⟩
      rw [branches] at simulates
      obtain ⟨y, lands, steps, reaches⟩ := simulates
      refine ⟨y, steps, lands, fun k => ?_⟩
      rw [← reaches k, ← run_succ _ frames, Nat.add_right_comm]

end WasmEngine.Structured
