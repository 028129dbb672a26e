import WasmEngine.Proofs.Machine.Simulation

/-!
# Entering and leaving constructs

The machine enters a construct by a frame and a label.  It leaves constructs by a branch, which
unwinds frames and labels together, or at the end of the sequence of the innermost frame.
-/

namespace WasmEngine.Structured

open Stack Outcome

variable {σ α β S : Type} {env : Environment σ} {scope : Scope} {site : Site scope}
  {a : Activation σ} {fuel : Nat}

/-! ## Branches -/

/-- Taking values off the operands is the same over all labels. -/
theorem popN_cases (a : Activation σ) (n : Nat) :
    (∃ vs rest, onOperands (popN n) a = .ok vs { a with operands := rest } ∧ vs.length = n ∧
      ∀ below, Closed below → popN n (stacked below a.operands) = .ok vs (stacked below rest)) ∨
    ∃ e rest, onOperands (popN n) a = .error (.fault e) { a with operands := rest } ∧
      ∀ below, Closed below → popN n (stacked below a.operands) = .error e (stacked below rest) := by
  obtain ⟨r, runs⟩ := local_popN n a.operands
  have alone : popN n (stackOf a.operands) = onState (stacked []) r := by
    rw [← runs [] closed_nil]
    simp [stackOf, stacked]
  cases r with
  | ok vs rest =>
    refine .inl ⟨vs, rest, ?_, ?_, runs⟩
    · simp [onOperands, alone, values_stacked]
    · simpa using length_of_popOnto alone
  | error e rest =>
    refine .inr ⟨e, rest, ?_, runs⟩
    simp [onOperands, alone, values_stacked]

theorem onStack_ok {f : StackM α} {x : Execution σ} {v : α} {s : Stack}
    (runs : f x.stack = .ok v s) :
    Exec.onStack f x = .ok v { x with stack := s } := by
  simp only [Exec.onStack, runs]

theorem onStack_error {f : StackM α} {x : Execution σ} {e : Fault} {s : Stack}
    (runs : f x.stack = .error e s) :
    Exec.onStack f x = .error (.fault e) { x with stack := s } := by
  simp only [Exec.onStack, runs]

/-- A branch inside a function unwinds the stack and the frames to its target. -/
theorem branch_eq {x : Execution σ} {frame target : Frame} {outer : List Frame} {depth : Nat}
    (frames : x.frames = frame :: outer) (at_ : x.frames[depth]? = some target)
    (inside : frame.function + depth < x.frames.length) :
    Exec.branch depth x = (do
      let _ ← Exec.onStack (Stack.branch depth target.isLoop)
      Exec.setFrames (if target.isLoop then { target with pc := 0 } :: x.frames.drop (depth + 1)
        else x.frames.drop (depth + 1))) x := by
  obtain ⟨store, stack, _, world⟩ := x
  cases frames
  simp only at at_ inside
  simp only [Exec.branch, bind, EStateM.bind, run_get, List.head?_cons, at_, if_pos inside]
  cases target.isLoop <;> rfl

/-- A branch out of a function finds no label. -/
theorem branch_eq_error {x : Execution σ} {frame : Frame} {outer : List Frame} {depth : Nat}
    (frames : x.frames = frame :: outer) (outside : ¬ frame.function + depth < x.frames.length) :
    Exec.branch depth x = .error (.fault (.labelNotFound depth)) x := by
  obtain ⟨store, stack, _, world⟩ := x
  cases frames
  simp only at outside
  simp only [Exec.branch, bind, EStateM.bind, run_get, List.head?_cons]
  cases (frame :: outer)[depth]? with
  | none => rfl
  | some target =>
    simp only [if_neg outside]
    rfl

/-- Branching keeps as many operands as its label says. -/
theorem stackBranch_ok {below rest : List StackEntry} {operands vs : List Value} {s : Stack}
    {depth arity : Nat} (keep : Bool) (found : findLabel? depth below = some (arity, rest))
    (taken : popN arity (stacked below operands) = .ok vs s) :
    Stack.branch depth keep (stacked below operands) =
      .ok arity (stacked (if keep then .label arity :: rest else rest) vs) := by
  have found' := (findLabel?_stacked depth below operands).trans found
  simp only [Stack.branch, bind, EStateM.bind, run_get, found', taken]
  rfl

/-- Branching with too few operands fails as popping them does. -/
theorem stackBranch_error {below rest : List StackEntry} {operands : List Value} {e : Fault}
    {s : Stack} {depth arity : Nat} (keep : Bool)
    (found : findLabel? depth below = some (arity, rest))
    (failed : popN arity (stacked below operands) = .error e s) :
    Stack.branch depth keep (stacked below operands) = .error e s := by
  have found' := (findLabel?_stacked depth below operands).trans found
  simp only [Stack.branch, bind, EStateM.bind, run_get, found', failed]

/-- A lifted state has the frames of its site, the callers included. -/
theorem frames_length (site : Site scope) (a : Activation σ) :
    (site.state a).frames.length = site.opened.length + 1 + site.callers.length := by
  simp [Site.state]
  omega

/-- Unwinding to a label with the values that it carries. -/
theorem simulates_leave {depth arity : Nat} {completion : List Value → Completion}
    (label : scope.labels[depth]? = some arity)
    (lands : ∀ vs b (y : Execution σ), vs.length = arity → site.landing depth vs b = some y →
      site.Lands (completion vs) b y) :
    Simulates env fuel (Exec.branch depth) (site.state a) Activation.view site.Lands
      ((do return completion (← onOperands (popN arity))) a) := by
  have length : scope.labels.length = site.opened.length + 1 := by simp [site.labels]
  obtain ⟨bound, -⟩ := List.getElem?_eq_some_iff.1 label
  obtain ⟨target, rest, at_, found, -⟩ := site.exists_landing label
  have within : depth + 1 ≤
      ((site.frame :: site.opened).map (Frame.withLocals a.locals)).length := by
    simpa using by omega
  have here : (site.state a).frames[depth]? = some (target.withLocals a.locals) := by
    rw [Site.state, List.getElem?_append_left within, List.getElem?_map, at_]
    rfl
  have inside : (site.frame.withLocals a.locals).function + depth <
      (site.state a).frames.length := by
    rw [frames_length, Frame.withLocals_function, site.call.head_function]
    omega
  have runs := branch_eq rfl here inside
  rw [Frame.withLocals_isLoop] at runs
  have closed := closed_label site.frame.labelArity site.below
  obtain ⟨vs, kept, takes, count, same⟩ | ⟨e, kept, fails, same⟩ := popN_cases a arity
  · have unwinds := stackBranch_ok target.isLoop found (same _ closed)
    rw [bind_ok (onStack_ok unwinds)] at runs
    rw [bind_ok takes]
    refine simulates_ok runs (lands _ _ _ count ?_)
    have dropped : (site.state a).frames.drop (depth + 1) =
        ((site.frame :: site.opened).drop (depth + 1)).map (Frame.withLocals a.locals) ++
          site.callers := by
      rw [Site.state, List.drop_append_of_le_length within, List.map_drop]
    simp only [Site.landing, at_, found, dropped]
    cases target.isLoop <;> rfl
  · have unwinds := stackBranch_error target.isLoop found (same _ closed)
    rw [bind_error (onStack_error unwinds)] at runs
    rw [bind_error fails]
    exact simulates_error runs rfl

theorem simulates_branch (depth : Nat) :
    Simulates env fuel (Exec.branch depth) (site.state a) Activation.view site.Lands
      (branch scope depth a) := by
  cases label : scope.labels[depth]? with
  | none =>
    have outside : ¬ (site.frame.withLocals a.locals).function + depth <
        (site.state a).frames.length := by
      have := List.getElem?_eq_none_iff.1 label
      rw [frames_length, Frame.withLocals_function, site.call.head_function]
      simp [site.labels] at this
      omega
    unfold branch
    rw [label]
    exact simulates_error (branch_eq_error rfl outside) rfl
  | some arity =>
    have evaluates : (branch scope depth : Eval σ Completion) =
        (do return .branch depth (← onOperands (popN arity))) := by
      unfold branch
      rw [label]
    rw [evaluates]
    exact simulates_leave label fun vs b y count landing => ⟨by rw [label, count], landing⟩

theorem simulates_plain (id : String) (args : List Node) :
    Simulates env fuel (Exec.plain id args) (site.state a) Activation.view site.Lands
      (plain scope id args a) := by
  unfold plain
  split
  · exact simulates_lift (lifts_indexArg _ _ _) fun i b => simulates_branch i
  · refine simulates_lift (lifts_onStack local_popI32) fun condition b => ?_
    by_cases zero : condition = 0
    · simp only [if_pos zero]
      exact simulates_ok rfl rfl
    · simp only [if_neg zero]
      exact simulates_lift (lifts_indexArg _ _ _) fun i b => simulates_branch i
  · refine simulates_lift (lifts_onStack local_popI32) fun selector b => ?_
    cases args.isEmpty with
    | true => exact simulates_error rfl rfl
    | false => exact simulates_lift (lifts_indexArg _ _ _) fun i b => simulates_branch i
  · obtain ⟨f, isLast, notLoop, arity⟩ := site.call.last_eq
    have label : scope.labels[site.opened.length]? = some scope.returns := by
      simp only [List.length_cons, Nat.add_sub_cancel] at isLast
      rw [site.labels, List.getElem?_map, isLast]
      simp [Frame.labelArity, notLoop, arity]
    have inside : (site.state a).frames.length - 1 - (site.frame.withLocals a.locals).function =
        site.opened.length := by
      rw [frames_length, Frame.withLocals_function, site.call.head_function]
      omega
    have returns : Exec.plain "return" args (site.state a) =
        Exec.branch site.opened.length (site.state a) :=
      congrArg (fun depth => Exec.branch depth (site.state a)) inside
    exact simulates_congr returns
      (simulates_leave label fun vs b y count landing => ⟨count, landing⟩)
  · next h₁ h₂ h₃ h₄ =>
    have stays : id ∉ leaving := by
      simpa [leaving] using ⟨h₁, h₂, h₃, h₄⟩
    exact simulates_normal (simulates_of_lifts (lifts_plain stays args))

/-! ## The end of a sequence -/

namespace Site

/-- The state of the machine after the innermost frame was left with values. -/
def left (site : Site scope) (vs : List Value) (a : Activation σ) : Execution σ where
  store := a.store
  stack := stacked site.below vs
  frames := site.opened.map (Frame.withLocals a.locals) ++ site.callers
  world := a.world

/-- A branch to a label that is no loop lands past its construct. -/
theorem landing_zero {vs : List Value} {y : Execution σ} (notLoop : site.frame.isLoop = false)
    (landing : site.landing 0 vs a = some y) : y = site.left vs a := by
  simp only [Site.landing, List.getElem?_cons_zero, findLabel?, notLoop] at landing
  exact (Option.some.inj landing).symm

/-- A branch to a loop lands at its start. -/
theorem landing_loop {y : Execution σ} (isLoop : site.frame.isLoop = true)
    (start : site.frame.pc = 0) (landing : site.landing 0 [] a = some y) :
    y = site.state { a with operands := [] } := by
  have restarted : { site.frame with pc := 0 } = site.frame := by rw [← start]
  simp only [Site.landing, List.getElem?_cons_zero, findLabel?, isLoop, restarted] at landing
  exact (Option.some.inj landing).symm

/-- Leaving a construct puts its results on the operands from before it. -/
theorem left_inside (step : Step) (arity : Nat) (operands vs : List Value) :
    (site.inside step arity operands).left vs a =
      site.state { a with operands := operands ++ vs } := by
  simp [left, inside, state]

end Site

/-- At its end, a construct leaves its results in place of its label. -/
theorem exitLabel_ok {below : List StackEntry} {operands vs rest : List Value} {label arity : Nat}
    (taken : popN arity (stacked (.label label :: below) operands) =
      .ok vs (stacked (.label label :: below) rest)) :
    Stack.exitLabel arity (stacked (.label label :: below) operands) = .ok () (stacked below vs) := by
  simp only [Stack.exitLabel, bind, EStateM.bind, taken, run_get, findLabel?_stacked]
  rfl

/-- A construct that ends with too few operands fails as popping them does. -/
theorem exitLabel_error {s s' : Stack} {e : Fault} {arity : Nat}
    (failed : popN arity s = .error e s') : Stack.exitLabel arity s = .error e s' := by
  simp only [Stack.exitLabel, bind, EStateM.bind, failed]

/-- A step past the code of a frame leaves the frame. -/
theorem step_end {x : Execution σ} {frame : Frame} {outer : List Frame} {code : List Node}
    (runs : frame.code = .ok code) (atEnd : code[frame.pc]? = none) :
    Exec.step env frame outer x =
      Exec.onStack (Stack.exitLabel frame.arity) { x with frames := outer } := by
  simp only [Exec.step, bind, EStateM.bind, runs, Exec.ofResult, pure, EStateM.pure, atEnd]
  rfl

/-- At the end of its sequence the innermost frame is left. -/
theorem simulates_end {code : List Node} (runs : site.frame.code = .ok code)
    (atEnd : code[site.frame.pc]? = none) :
    Simulates env fuel (pure ()) (site.state a) Activation.view
      (fun vs b y => vs.length = site.frame.arity ∧ y = site.left vs b)
      (onOperands (popN site.frame.arity) a) := by
  refine Simulates.mono (Simulates.step rfl ?_) (Nat.le_succ fuel)
  have closed := closed_label site.frame.labelArity site.below
  have runs' : (site.frame.withLocals a.locals).code = .ok code := runs
  obtain ⟨vs, kept, takes, count, same⟩ | ⟨e, kept, fails, same⟩ := popN_cases a site.frame.arity
  · rw [takes]
    have exits := exitLabel_ok (same _ closed)
    exact simulates_ok ((step_end runs' atEnd).trans (onStack_ok exits)) ⟨count, rfl⟩
  · rw [fails]
    have exits := exitLabel_error (same _ closed)
    exact simulates_error ((step_end runs' atEnd).trans (onStack_error exits)) rfl

/-! ## Constructs -/

/-- A construct ends with its results, or hands a branch to an outer label on. -/
theorem construct_eq (arity : Nat) (body : Eval σ Completion) (a : Activation σ) :
    construct arity body a =
      match body { a with operands := [] } with
      | .ok .normal b =>
        (do
          let results ← onOperands (popN arity)
          setOperands (a.operands ++ results)
          return Completion.normal) b
      | .ok (.branch 0 vs) b => .ok .normal { b with operands := a.operands ++ vs }
      | .ok (.branch (depth + 1) vs) b => .ok (.branch depth vs) b
      | .ok (.ret vs) b => .ok (.ret vs) b
      | .error e b => .error e b := by
  simp only [construct, bind, EStateM.bind, run_get, setOperands, run_modify]
  cases body { a with operands := [] } with
  | error e b => rfl
  | ok c b =>
    cases c with
    | normal => rfl
    | branch depth vs => cases depth <;> rfl
    | ret vs => rfl

/-- A construct whose body is simulated.  A loop never ends by a branch to its own label. -/
theorem simulates_construct {step : Step} {arity count : Nat} {code : List Node}
    {body : Eval σ Completion} (runs : (site.frame.child step arity).code = .ok code)
    (atEnd : code[count]? = none)
    (noRepeat : ∀ vs b, body { a with operands := [] } = .ok (.branch 0 vs) b →
      (site.frame.child step arity).isLoop = false)
    (simulates : Simulates env fuel (pure ())
      ((site.inside step arity a.operands).state { a with operands := [] }) Activation.view
      ((site.inside step arity a.operands).advance count).Lands (body { a with operands := [] })) :
    Simulates env fuel (pure ())
      ((site.inside step arity a.operands).state { a with operands := [] }) Activation.view
      site.Lands (construct arity body a) := by
  rw [construct_eq]
  refine simulates.bind (fun e s failed => ⟨s, by rw [failed], rfl⟩)
    fun completion b y completed lands => ?_
  rw [completed]
  match completion, lands with
  | .normal, lands =>
    obtain rfl := lands
    have inner : ((site.inside step arity a.operands).advance count).frame.code = .ok code := runs
    have pc : code[((site.inside step arity a.operands).advance count).frame.pc]? = none := by
      rw [← atEnd]
      exact congrArg (code[·]?) (Nat.zero_add count)
    refine (simulates_end inner pc).bind (fun e s failed => ⟨s, ?_, rfl⟩)
      fun vs c z taken ⟨_, leaves⟩ => ?_
    · exact bind_error failed
    · have evaluates : (do
            let results ← onOperands (popN arity)
            setOperands (a.operands ++ results)
            return Completion.normal) b =
          .ok .normal { c with operands := a.operands ++ vs } := bind_ok taken
      dsimp only
      rw [evaluates]
      exact simulates_ok rfl (leaves.trans (site.left_inside step arity a.operands vs))
  | .branch 0 vs, ⟨label, landing⟩ =>
    rw [Site.landing_advance] at landing
    obtain rfl := Site.landing_zero (noRepeat vs b completed) landing
    exact simulates_ok rfl (site.left_inside step arity a.operands vs)
  | .branch (depth + 1) vs, ⟨label, landing⟩ =>
    rw [Site.landing_advance, Site.landing_inside] at landing
    exact simulates_ok rfl ⟨label, landing⟩
  | .ret vs, ⟨count, landing⟩ =>
    rw [Site.landing_advance] at landing
    exact simulates_ok rfl ⟨count, (site.landing_inside ..).symm.trans landing⟩

/-- A frame is entered below the bound, and is a call-stack overflow at it. -/
theorem enter_eq (maxDepth depth : Nat) (a : Activation σ) :
    enter maxDepth depth a =
      if maxDepth ≤ depth then .error (.fault .callStackOverflow) a else .ok () a := by
  unfold enter
  split <;> rfl

/-- A frame is pushed below the bound, and is a call-stack overflow at it. -/
theorem pushFrame_eq (maxDepth : Nat) (frame : Frame) (x : Execution σ) :
    Exec.pushFrame maxDepth frame x =
      if maxDepth ≤ x.frames.length then .error (.fault .callStackOverflow) x
      else .ok () { x with frames := frame :: x.frames } := by
  simp only [Exec.pushFrame, bind, EStateM.bind, run_get]
  split <;> rfl

/-- A block is entered below the bound, and is a call-stack overflow at it. -/
theorem enterBlock_eq (site : Site scope) (a : Activation σ) (maxDepth : Nat) (step : Step)
    (result : Option Valtype) :
    Exec.enterBlock maxDepth step result (site.state a) =
      if maxDepth ≤ scope.depth then
        .error (.fault .callStackOverflow) { site.state a with
          stack := ⟨.label (site.frame.child step result.toList.length).labelArity ::
            (site.state a).stack.entries⟩ }
      else
        .ok () ((site.inside step result.toList.length a.operands).state
          { a with operands := [] }) := by
  have entered : Exec.enterBlock maxDepth step result (site.state a) =
      Exec.pushFrame maxDepth (site.frame.child step result.toList.length)
        { site.state a with
          stack := ⟨.label (site.frame.child step result.toList.length).labelArity ::
            (site.state a).stack.entries⟩ } := rfl
  rw [entered, pushFrame_eq, frames_length, ← site.depth]
  simp [Site.state, Site.inside, stacked]

/-- A construct is entered unless too much is open, and then its body runs. -/
theorem simulates_enterBlock {step : Step} {result : Option Valtype} {m : Eval σ Completion}
    (simulates : Simulates env fuel (pure ())
      ((site.inside step result.toList.length a.operands).state { a with operands := [] })
      Activation.view site.Lands (m a)) :
    Simulates env fuel (Exec.enterBlock env.maxDepth step result) (site.state a) Activation.view
      site.Lands ((do enter env.maxDepth scope.depth; m) a) := by
  have entered := enterBlock_eq site a env.maxDepth step result
  have evaluates := enter_eq env.maxDepth scope.depth a
  by_cases deep : env.maxDepth ≤ scope.depth
  · rw [if_pos deep] at entered evaluates
    rw [bind_error evaluates]
    exact simulates_error entered rfl
  · rw [if_neg deep] at entered evaluates
    rw [bind_ok evaluates]
    exact simulates_then entered simulates

end WasmEngine.Structured
