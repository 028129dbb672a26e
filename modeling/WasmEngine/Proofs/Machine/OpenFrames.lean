import WasmEngine.Proofs.Machine.Jumps

/-!
# Open frames

From the step that enters a frame to the one that removes it, the entries below its label stay as they are, and the
removal puts the results of the frame in place of all that stands above them (`holds_of_entered`).  It does not
matter what happens inside, which may be calls, other constructs and branches over values that were left behind, nor
whether the bodies are checked.
-/

namespace WasmEngine

open Outcome Structured

namespace Stack

theorem findLabel?_of_floor {s s' : Stack} (level : s'.floor = s.floor) (depth : Nat) :
    findLabel? depth s'.entries = findLabel? depth s.entries := by
  obtain ⟨vs, here, -⟩ := exists_stacked s
  obtain ⟨vs', here', -⟩ := exists_stacked s'
  rw [here, here', findLabel?_stacked, findLabel?_stacked, level]

/-- A label that is found has as many labels above it as were passed. -/
theorem exists_above {entries below : List StackEntry} {depth arity : Nat}
    (found : findLabel? depth entries = some (arity, below)) :
    ∃ above, entries = above ++ .label arity :: below ∧ above.countP StackEntry.isLabel = depth := by
  induction entries generalizing depth with
  | nil => cases found
  | cons entry entries ih =>
    cases entry with
    | value v =>
      rw [findLabel?] at found
      obtain ⟨above, rfl, count⟩ := ih found
      exact ⟨.value v :: above, rfl, by rw [List.countP_cons_of_neg Bool.false_ne_true, count]⟩
    | label n =>
      cases depth with
      | zero =>
        cases found
        exact ⟨[], rfl, rfl⟩
      | succ depth =>
        obtain ⟨above, rfl, count⟩ := ih found
        exact ⟨.label n :: above, rfl, by rw [List.countP_cons_of_pos rfl, count]⟩

/-- Labels below one that is found are found by counting on from there. -/
theorem findLabel?_below {entries below : List StackEntry} {depth arity : Nat}
    (found : findLabel? depth entries = some (arity, below)) (more : Nat) :
    findLabel? (depth + 1 + more) entries = findLabel? more below := by
  induction entries generalizing depth with
  | nil => cases found
  | cons entry entries ih =>
    cases entry with
    | value v =>
      rw [findLabel?] at found ⊢
      exact ih found
    | label n =>
      cases depth with
      | zero =>
        cases found
        rw [Nat.zero_add, Nat.add_comm]
        rfl
      | succ depth =>
        rw [Nat.add_right_comm (depth + 1) 1 more]
        exact ih found

/-- A stack with a label has an innermost one. -/
theorem exists_innermost {entries : List StackEntry} {depth : Nat} {label : Nat × List StackEntry}
    (found : findLabel? depth entries = some label) : ∃ innermost, findLabel? 0 entries = some innermost := by
  induction entries with
  | nil => cases found
  | cons entry entries ih =>
    cases entry with
    | value v =>
      rw [findLabel?] at found ⊢
      exact ih found
    | label n => exact ⟨_, rfl⟩

/-- Operands are no labels. -/
@[simp] theorem labels_stacked (below : List StackEntry) (vs : List Value) :
    (stacked below vs).labels = (⟨below⟩ : Stack).labels := by
  have none : (vs.map StackEntry.value).reverse.countP StackEntry.isLabel = 0 := by
    rw [List.countP_eq_zero]
    intro entry inside
    obtain ⟨v, -, rfl⟩ := List.mem_map.1 (List.mem_reverse.1 inside)
    exact Bool.false_ne_true
  rw [labels, stacked, List.countP_append, none, Nat.zero_add, labels]

end Stack

/-- A frame without its locals and its position. -/
def Frame.bare (frame : Frame) : Frame := { frame.outline with pc := 0 }

namespace Frame

variable {f g : Frame}

theorem bare_of_outline (same : g.outline = f.outline) : g.bare = f.bare :=
  congrArg (fun frame => { frame with pc := 0 }) same

theorem arity_of_bare (same : g.bare = f.bare) : g.arity = f.arity :=
  (congrArg Frame.arity same : g.bare.arity = f.bare.arity)

theorem isLoop_of_bare (same : g.bare = f.bare) : g.isLoop = f.isLoop := by
  have kind : (g.withLocals []).kind = (f.withLocals []).kind :=
    (congrArg Frame.kind same : g.bare.kind = f.bare.kind)
  rw [← withLocals_isLoop [] g, ← withLocals_isLoop [] f, isLoop, isLoop, kind]

/-- A loop has no locals, so that it starts again as it was entered. -/
theorem restart_eq (same : g.bare = f.bare) (loop : f.isLoop = true) (start : f.pc = 0) :
    { g with pc := 0 } = f := by
  have loop' := (isLoop_of_bare same).trans loop
  obtain ⟨func, path, pc, kind, arity, function⟩ := f
  obtain ⟨func', path', pc', kind', arity', function'⟩ := g
  cases kind with
  | loop =>
    cases kind' with
    | loop =>
      cases start
      exact same
    | _ => cases loop'
  | _ => cases loop

end Frame

variable {σ : Type}

/-- The states that the loop reaches while no frame is removed that is there at the beginning. -/
inductive Exec.Above (env : Environment σ) (x : Execution σ) : Execution σ → Prop
  | refl : Above env x x
  | step {y z : Execution σ} {frame : Frame} {outer : List Frame} (before : Above env x y)
      (frames : y.frames = frame :: outer) (stepped : Exec.step env frame outer y = .ok () z)
      (remain : x.frames.length ≤ z.frames.length) : Above env x z

/-- The innermost frame has just been entered: the state is the first of a call from outside, or follows on a step
of such a call by which there is a frame more. -/
inductive Entered (env : Environment σ) (address : Nat) (args : List Value) (before : Store × σ) :
    Execution σ → Prop
  | outermost {f : Func} {owner : Nat} {type : FuncType} {x : Execution σ}
      (found : before.1.func address = .ok ⟨type, .wasm f owner⟩) (count : args.length = type.args.length)
      (entered : Exec.enterFunction env.maxDepth f owner type (castArgs args type)
        ⟨before.1, .empty, [], before.2⟩ = .ok () x) : Entered env address args before x
  | inner {y x : Execution σ} {frame : Frame} {outer : List Frame} (stands : Stands env address args before y)
      (frames : y.frames = frame :: outer) (stepped : Exec.step env frame outer y = .ok () x)
      (more : y.frames.length < x.frames.length) : Entered env address args before x

/-- What is true of a state `y` in which a frame is open that was entered, by the state `x`, over the entries
`below`. -/
structure Open (env : Environment σ) (x : Execution σ) (frame : Frame) (below : List StackEntry)
    (y : Execution σ) : Prop where
  /-- The frame lies where it was entered, over the same entries, and has a label for each frame inside it above
  its own. -/
  kept : ∃ inner here outer above, y.frames = inner ++ here :: outer ∧ here.bare = frame.bare ∧
    outer.length + 1 = x.frames.length ∧ y.stack.entries = above ++ .label frame.labelArity :: below ∧
    above.countP StackEntry.isLabel = inner.length
  /-- At the end of its sequence, the frame is left with as many of the topmost values as is its arity. -/
  ends : ∀ {here : Frame} {outer : List Frame} {code : List Node} {z : Execution σ},
    y.frames = here :: outer → y.frames.length = x.frames.length → here.code = .ok code →
    code.length ≤ here.pc → (Exec.step env here outer y = .ok () z ↔
      ∃ vs rest, vs.length = frame.arity ∧ y.stack = Stack.stacked rest vs ∧
        z = { y with stack := Stack.stacked below vs, frames := outer })
  /-- By a jump to it inside its function, a frame that is not a loop is left together with all inside it, with as
  many of the topmost values as is the arity of its label. -/
  left : frame.isLoop = false → ∀ {innermost : Frame} {outer : List Frame} {code : List Node} {node : Node}
    {depth : Nat} {rest : Stack} {z : Execution σ}, y.frames = innermost :: outer →
    innermost.code = .ok code → code[innermost.pc]? = some node →
    Jumps y.frames.length innermost.function y.stack node depth rest →
    y.frames.length = x.frames.length + depth → (Exec.step env innermost outer y = .ok () z ↔
      innermost.function + depth < y.frames.length ∧
        ∃ vs others, vs.length = frame.labelArity ∧ rest = Stack.stacked others vs ∧
          z = { y with
            stack := Stack.stacked below vs
            frames := y.frames.drop (depth + 1)
            world := env.observe y.frames.length (node.instructionName?.getD "") y.world })
  /-- By a jump to it, a loop is entered again over nothing but its label. -/
  restarts : frame.isLoop = true → ∀ {innermost : Frame} {outer : List Frame} {code : List Node} {node : Node}
    {depth : Nat} {rest : Stack} {z : Execution σ}, y.frames = innermost :: outer →
    innermost.code = .ok code → code[innermost.pc]? = some node →
    Jumps y.frames.length innermost.function y.stack node depth rest →
    y.frames.length = x.frames.length + depth → (Exec.step env innermost outer y = .ok () z ↔
      innermost.function + depth < y.frames.length ∧
        z = { y with
          stack := ⟨.label 0 :: below⟩
          frames := frame :: y.frames.drop (depth + 1)
          world := env.observe y.frames.length (node.instructionName?.getD "") y.world })
  /-- A step that removes the frame is its end or a jump, to it or to a frame outside of it, and leaves a label for
  each frame that remains and no other. -/
  removed : ∀ {innermost : Frame} {outer : List Frame} {z : Execution σ}, y.frames = innermost :: outer →
    Exec.step env innermost outer y = .ok () z → z.frames.length < x.frames.length →
    (∃ code, innermost.code = .ok code ∧
      (y.frames.length = x.frames.length ∧ code.length ≤ innermost.pc ∨
        ∃ node depth rest, code[innermost.pc]? = some node ∧
          Jumps y.frames.length innermost.function y.stack node depth rest ∧
          y.frames.length ≤ x.frames.length + depth)) ∧
    z.stack.labels = z.frames.length

namespace Execution

variable {env : Environment σ} {maxDepth : Nat} {x y z : Execution σ} {frame : Frame} {below : List StackEntry}

/-- The innermost frame of a state is new, over entries with a label for each frame outside of it. -/
structure Fresh (maxDepth : Nat) (x : Execution σ) (frame : Frame) (outer : List Frame)
    (below : List StackEntry) : Prop where
  frames : x.frames = frame :: outer
  start : frame.pc = 0
  stack : x.stack = ⟨.label frame.labelArity :: below⟩
  labels : (⟨below⟩ : Stack).labels = outer.length
  coherent : Coherent maxDepth x

/-- A frame that is entered starts with an empty operand stack of its own. -/
theorem Enters.fresh (enters : Enters maxDepth frame x y) (start : frame.pc = 0)
    (labels : x.stack.labels = x.frames.length) (coherent : Coherent maxDepth y) :
    Fresh maxDepth y frame x.frames x.stack.entries := by
  have result := enters.result
  exact ⟨by rw [result], start, by rw [result], labels, coherent⟩

/-- A running state has as many labels as frames. -/
theorem Coherent.labels (coherent : Coherent maxDepth x) (some : x.frames ≠ []) :
    x.stack.labels = x.frames.length := (coherent some).2.1.count

/-- A step by which there is a frame more enters that frame. -/
theorem Moves.exists_fresh (moves : Moves maxDepth x y) (coherent : Coherent maxDepth x)
    (more : x.frames.length < y.frames.length) : ∃ frame outer below, Fresh maxDepth y frame outer below := by
  have coherent' := moves.coherent coherent
  cases moves with
  | leave frames _ _ _ remain _ =>
    rw [frames, remain, List.length_cons] at more
    omega
  | @run frame outer code z frames runs here stack advanced _ ends =>
    have before : z.frames.length = x.frames.length := by rw [frames, advanced]; rfl
    have labels {w : Execution σ} (stays : Stays z w) : w.stack.labels = w.frames.length := by
      refine (stays.coherent (coherent.advance frames runs here stack advanced)).labels ?_
      rw [← List.length_pos_iff, stays.length, advanced]
      exact Nat.succ_pos _
    cases ends with
    | stay stays =>
      rw [stays.length, before] at more
      omega
    | unwind stays unwinds =>
      have within := (List.getElem?_eq_some_iff.1 unwinds.at_).1
      rw [unwinds.frames] at more
      split at more
      · simp only [List.length_cons, List.length_drop, stays.length, before] at more within
        omega
      · simp only [List.length_drop, stays.length, before] at more within
        omega
    | construct stays _ _ enters =>
      exact ⟨_, _, _, enters.fresh rfl (labels stays) coherent'⟩
    | call stays _ enters => exact ⟨_, _, _, enters.fresh rfl (labels stays) coherent'⟩

/-- A frame that was entered as the innermost of `n` lies so deep in a state, over the same entries. -/
structure Lies (n : Nat) (frame : Frame) (below : List StackEntry) (depth : Nat) (x : Execution σ) : Prop where
  count : x.frames.length = n + depth
  label : Stack.findLabel? depth x.stack.entries = some (frame.labelArity, below)
  here : ∃ f, x.frames[depth]? = some f ∧ f.bare = frame.bare

variable {n depth : Nat}

namespace Lies

/-- A step inside the innermost frame leaves what lies below a label. -/
theorem stays (lies : Lies n frame below depth x) (stays : Stays x y) : Lies n frame below depth y := by
  obtain ⟨f, at_, same⟩ := lies.here
  have outline : (y.frames.map Frame.outline)[depth]? = some f.outline := by
    rw [stays.frames, List.getElem?_map, at_]
    rfl
  rw [List.getElem?_map, Option.map_eq_some_iff] at outline
  obtain ⟨g, at_', same'⟩ := outline
  refine ⟨?_, (Stack.findLabel?_of_floor stays.floor depth).trans lies.label, g, at_',
    (Frame.bare_of_outline same').trans same⟩
  rw [← lies.count, stays.length]

/-- Moving on to the next instruction leaves what lies below a label. -/
theorem advance {f : Frame} {outer : List Frame} (lies : Lies n frame below depth x)
    (frames : x.frames = f :: outer) (stack : y.stack = x.stack)
    (advanced : y.frames = f.advance 1 :: outer) : Lies n frame below depth y := by
  obtain ⟨g, at_, same⟩ := lies.here
  refine ⟨?_, by rw [stack, lies.label], ?_⟩
  · rw [← lies.count, frames, advanced]
    rfl
  · rw [frames] at at_
    rw [advanced]
    cases depth with
    | zero =>
      cases at_
      exact ⟨_, rfl, same⟩
    | succ depth => exact ⟨g, at_, same⟩

/-- Entering a frame leaves what lies below a label, one level further out. -/
theorem enters {f : Frame} (lies : Lies n frame below depth x) (enters : Enters maxDepth f x y) :
    Lies n frame below (depth + 1) y := by
  obtain ⟨g, at_, same⟩ := lies.here
  rw [enters.result]
  refine ⟨?_, lies.label, g, at_, same⟩
  rw [List.length_cons, lies.count, Nat.add_assoc]

/-- A branch that stays inside a frame leaves what lies below its label. -/
theorem unwinds {target : Frame} {d : Nat} (lies : Lies n frame below depth x) (unwinds : Unwinds d target x y)
    (remain : n ≤ y.frames.length) : ∃ depth, Lies n frame below depth y := by
  have count := lies.count
  have label := lies.label
  obtain ⟨f, at_, same⟩ := lies.here
  obtain ⟨within, is⟩ := List.getElem?_eq_some_iff.1 unwinds.at_
  obtain ⟨arity, below', vs, _, found, -, stack⟩ := unwinds.stack
  have frames := unwinds.frames
  -- A frame further out than the target is found by counting on from there.
  have outside {more : Nat} (deeper : depth = d + 1 + more) :
      Stack.findLabel? more below' = some (frame.labelArity, below) ∧
        (x.frames.drop (d + 1))[more]? = some f := by
    subst deeper
    rw [List.getElem?_drop]
    exact ⟨(Stack.findLabel?_below found more).symm.trans label, at_⟩
  cases loop : target.isLoop with
  | false =>
    rw [loop, if_neg Bool.false_ne_true] at frames stack
    rw [frames, List.length_drop] at remain
    obtain ⟨more, deeper⟩ : ∃ more, depth = d + 1 + more := ⟨depth - (d + 1), by omega⟩
    obtain ⟨label', at_'⟩ := outside deeper
    refine ⟨more, ?_, ?_, f, ?_, same⟩
    · rw [frames, List.length_drop]
      omega
    · rw [stack, findLabel?_stacked, label']
    · rw [frames, at_']
  | true =>
    rw [loop, if_pos rfl] at frames stack
    rw [frames, List.length_cons, List.length_drop] at remain
    obtain ⟨more, deeper⟩ : ∃ more, depth = d + more := ⟨depth - d, by omega⟩
    refine ⟨more, ?_, ?_, ?_⟩
    · rw [frames, List.length_cons, List.length_drop]
      omega
    · rw [stack, findLabel?_stacked]
      cases more with
      | zero =>
        cases deeper
        exact found.symm.trans label
      | succ more => exact (outside (by omega)).1
    · rw [frames]
      cases more with
      | zero =>
        cases deeper
        cases at_.symm.trans unwinds.at_
        exact ⟨_, rfl, same⟩
      | succ more => exact ⟨f, (outside (by omega)).2, same⟩

/-- What a step does to the frames leaves the frame where it lies, unless it removes it. -/
theorem moves (lies : Lies n frame below depth x) (moves : Moves maxDepth x y)
    (remain : n ≤ y.frames.length) : ∃ depth, Lies n frame below depth y := by
  cases moves with
  | @leave f outer code frames runs atEnd left remain' functions =>
    have count := lies.count
    have label := lies.label
    obtain ⟨g, at_, same⟩ := lies.here
    rw [frames, List.length_cons] at count
    rw [remain'] at remain
    obtain ⟨more, rfl⟩ : ∃ more, depth = more + 1 := ⟨depth - 1, by omega⟩
    obtain ⟨⟨arity, below'⟩, found⟩ := Stack.exists_innermost label
    obtain ⟨vs, _, -, -, stack⟩ := (Stack.exitLabel_eq_ok_iff found).1 left
    rw [Nat.add_comm more 1, ← Nat.zero_add 1, Stack.findLabel?_below found] at label
    rw [frames] at at_
    refine ⟨more, ?_, ?_, g, ?_, same⟩
    · rw [remain']
      omega
    · rw [stack, findLabel?_stacked, label]
    · rw [remain']
      exact at_
  | run frames runs here stack advanced store ends =>
    have lies' := lies.advance frames stack advanced
    cases ends with
    | stay stays => exact ⟨depth, lies'.stays stays⟩
    | unwind stays unwinds => exact (lies'.stays stays).unwinds unwinds remain
    | construct stays _ _ enters => exact ⟨depth + 1, (lies'.stays stays).enters enters⟩
    | call stays _ enters => exact ⟨depth + 1, (lies'.stays stays).enters enters⟩

end Lies

/-- Wherever the loop comes while a frame is not removed, the frame lies over the entries over which it was
entered. -/
theorem Fresh.lies {outer : List Frame} (fresh : Fresh env.maxDepth x frame outer below)
    (above : Exec.Above env x y) :
    Coherent env.maxDepth y ∧ ∃ depth, Lies x.frames.length frame below depth y := by
  induction above with
  | refl =>
    refine ⟨fresh.coherent, 0, rfl, ?_, frame, ?_, rfl⟩
    · rw [fresh.stack]
      rfl
    · rw [fresh.frames]
      rfl
  | step _ frames stepped remain ih =>
    obtain ⟨coherent, depth, lies⟩ := ih
    have moves := Exec.moves_of_step frames stepped
    exact ⟨moves.coherent coherent, lies.moves moves remain⟩

/-! ## The ways out of a frame -/

variable {outer : List Frame} {code : List Node} {here : Frame}

/-- At the end of its sequence. -/
theorem Lies.ends (lies : Lies n frame below 0 x) (frames : x.frames = here :: outer)
    (runs : here.code = .ok code) (atEnd : code.length ≤ here.pc) :
    Exec.step env here outer x = .ok () y ↔
      ∃ vs rest, vs.length = frame.arity ∧ x.stack = Stack.stacked rest vs ∧
        y = { x with stack := Stack.stacked below vs, frames := outer } := by
  obtain ⟨f, at_, same⟩ := lies.here
  rw [frames] at at_
  cases at_
  rw [step_end runs (List.getElem?_eq_none atEnd), Frame.arity_of_bare same, Exec.onStack_eq_ok_iff]
  constructor
  · rintro ⟨s, left, rfl⟩
    obtain ⟨vs, rest, count, stack, rfl⟩ := (Stack.exitLabel_eq_ok_iff lies.label).1 left
    exact ⟨vs, rest, count, stack, rfl⟩
  · rintro ⟨vs, rest, count, stack, rfl⟩
    exact ⟨_, (Stack.exitLabel_eq_ok_iff lies.label).2 ⟨vs, rest, count, stack, rfl⟩, rfl⟩

/-- The frame lies as deep where a jump branches. -/
theorem Lies.jumping {node : Node} {d : Nat} {rest : Stack} (lies : Lies n frame below depth x)
    (frames : x.frames = here :: outer)
    (jumps : Jumps x.frames.length here.function x.stack node d rest) :
    Lies n frame below depth (Exec.jumping env x here outer node rest) := by
  have lies' := lies.advance (y := { x with frames := here.advance 1 :: outer }) frames rfl rfl
  exact lies'.stays ⟨jumps.floor_eq, rfl, rfl⟩

/-- By a jump to it. -/
theorem Lies.jumped {node : Node} {rest : Stack} (lies : Lies n frame below depth x) (start : frame.pc = 0)
    (frames : x.frames = here :: outer) (runs : here.code = .ok code) (at_ : code[here.pc]? = some node)
    (jumps : Jumps x.frames.length here.function x.stack node depth rest) :
    Exec.step env here outer x = .ok () y ↔ here.function + depth < x.frames.length ∧
      ∃ vs others, vs.length = frame.labelArity ∧ rest = Stack.stacked others vs ∧
        y = { x with
          stack := Stack.stacked (if frame.isLoop then .label frame.labelArity :: below else below) vs
          frames := if frame.isLoop then frame :: x.frames.drop (depth + 1) else x.frames.drop (depth + 1)
          world := env.observe x.frames.length (node.instructionName?.getD "") x.world } := by
  have lies' : Lies n frame below depth (Exec.jumping env x here outer node rest) := lies.jumping frames jumps
  obtain ⟨f, is, same⟩ := lies'.here
  have length : (Exec.jumping env x here outer node rest).frames.length = x.frames.length := by
    rw [frames]
    rfl
  have drop : (Exec.jumping env x here outer node rest).frames.drop (depth + 1) = x.frames.drop (depth + 1) := by
    rw [frames]
    rfl
  have resumes : (if frame.isLoop then { f with pc := 0 } :: x.frames.drop (depth + 1)
      else x.frames.drop (depth + 1)) =
        if frame.isLoop then frame :: x.frames.drop (depth + 1) else x.frames.drop (depth + 1) := by
    split_ifs with loop
    · rw [Frame.restart_eq same loop start]
    · rfl
  rw [Exec.step_of_jumps frames runs at_ jumps, Exec.branch_eq_ok_iff rfl is lies'.label,
    Frame.isLoop_of_bare same, length, drop, resumes]
  exact Iff.rfl

/-- Labels are left together with their frames, also where no frame remains. -/
theorem Unwinds.labels {target : Frame} (unwinds : Unwinds depth target x y) (aligned : Aligned x.frames x.stack) :
    y.stack.labels = y.frames.length := by
  obtain ⟨below', here, rest⟩ := aligned.findLabel? unwinds.at_
  obtain ⟨arity, _, vs, _, found, -, stack⟩ := unwinds.stack
  cases here.symm.trans found
  rw [stack, Stack.labels_stacked, unwinds.frames]
  cases target.isLoop with
  | false => exact rest.count
  | true =>
    rw [if_pos rfl, if_pos rfl, List.length_cons, ← rest.count]
    exact List.countP_cons_of_pos rfl

/-- A branch leaves at most the frames that it names. -/
theorem Unwinds.length_le {target : Frame} (unwinds : Unwinds depth target x y) :
    x.frames.length ≤ y.frames.length + depth + 1 := by
  rw [unwinds.frames]
  split_ifs
  · rw [List.length_cons, List.length_drop]
    omega
  · rw [List.length_drop]
    omega

/-- A step that removes the frame leaves it at its end or jumps. -/
theorem Lies.removed (lies : Lies n frame below depth x) (coherent : Coherent env.maxDepth x)
    (frames : x.frames = here :: outer) (stepped : Exec.step env here outer x = .ok () y)
    (fewer : y.frames.length < n) :
    (∃ code, here.code = .ok code ∧ (x.frames.length = n ∧ code.length ≤ here.pc ∨
      ∃ node d rest, code[here.pc]? = some node ∧ Jumps x.frames.length here.function x.stack node d rest ∧
        x.frames.length ≤ n + d)) ∧
    y.stack.labels = y.frames.length := by
  obtain ⟨-, aligned, -⟩ := coherent (by rw [frames]; exact nofun)
  have count := lies.count
  cases runs : here.code with
  | error e =>
    rw [Exec.step, runs] at stepped
    cases stepped
  | ok code =>
    cases at_ : code[here.pc]? with
    | none =>
      rw [step_end runs at_] at stepped
      obtain ⟨s, left, rfl⟩ := Exec.onStack_eq_ok stepped
      obtain ⟨below', found, rest⟩ := aligned.findLabel?
        (show x.frames[0]? = some here by rw [frames]; rfl)
      obtain ⟨vs, _, -, -, rfl⟩ := (Stack.exitLabel_eq_ok_iff found).1 left
      refine ⟨⟨code, rfl, .inl ⟨?_, List.getElem?_eq_none_iff.1 at_⟩⟩, ?_⟩
      · rw [frames, List.length_cons] at count ⊢
        change outer.length < n at fewer
        omega
      · rw [Stack.labels_stacked, rest.count, frames]
        rfl
    | some node =>
      have length : (here.advance 1 :: outer).length = x.frames.length := by
        rw [frames]
        rfl
      have done : Exec.instruction env here.pc node
          { x with
            frames := here.advance 1 :: outer
            world := env.observe (outer.length + 1) (node.instructionName?.getD "") x.world } = .ok () y :=
        (step_next runs at_).symm.trans stepped
      obtain ⟨d, rest, jumps⟩ := Exec.jumps_of_fewer here.function done (by
        change _ < (here.advance 1 :: outer).length
        omega)
      change Jumps (here.advance 1 :: outer).length _ _ _ _ _ at jumps
      rw [length] at jumps
      rw [Exec.step_of_jumps frames runs at_ jumps] at stepped
      obtain ⟨target, unwinds⟩ := Exec.unwinds_of_branch stepped
      have bound := unwinds.length_le
      change (here.advance 1 :: outer).length ≤ _ at bound
      have aligned' : Aligned (here.advance 1 :: outer) rest := by
        rw [frames] at aligned
        cases aligned with
        | cons floor below => exact .cons (jumps.floor_eq.trans floor) below
      exact ⟨⟨code, rfl, .inr ⟨node, d, rest, at_, jumps, by omega⟩⟩, unwinds.labels aligned'⟩

/-- What is known of a frame that lies over the entries over which it was entered. -/
theorem Fresh.isOpen (fresh : Fresh env.maxDepth x frame outer below) (above : Exec.Above env x y) :
    Open env x frame below y := by
  obtain ⟨coherent, depth, lies⟩ := fresh.lies above
  have count := lies.count
  refine ⟨?_, ?_, ?_, ?_, fun frames stepped fewer => lies.removed coherent frames stepped fewer⟩
  · obtain ⟨f, at_, same⟩ := lies.here
    obtain ⟨within, rfl⟩ := List.getElem?_eq_some_iff.1 at_
    obtain ⟨above, entries, labels⟩ := Stack.exists_above lies.label
    refine ⟨y.frames.take depth, _, y.frames.drop (depth + 1), above, ?_, same, ?_, entries, ?_⟩
    · rw [← List.drop_eq_getElem_cons within, List.take_append_drop]
    · rw [List.length_drop]
      omega
    · rw [labels, List.length_take]
      omega
  · intro here outer code z frames innermost runs atEnd
    obtain rfl : depth = 0 := by omega
    exact lies.ends frames runs atEnd
  · intro notLoop innermost outer code node d rest z frames runs at_ jumps place
    obtain rfl : depth = d := by omega
    rw [lies.jumped fresh.start frames runs at_ jumps, notLoop]
    exact Iff.rfl
  · intro loop innermost outer code node d rest z frames runs at_ jumps place
    obtain rfl : depth = d := by omega
    have arity : frame.labelArity = 0 := if_pos loop
    rw [lies.jumped fresh.start frames runs at_ jumps, loop, arity]
    refine and_congr_right fun _ => ⟨?_, ?_⟩
    · rintro ⟨vs, others, none, -, rfl⟩
      rw [List.length_eq_zero_iff] at none
      subst none
      rfl
    · rintro rfl
      exact ⟨[], rest.entries, rfl, rfl, rfl⟩

end Execution

/-! ## Every frame -/

section

variable {env : Environment σ} {address : Nat} {args : List Value} {before : Store × σ} {x y : Execution σ}

/-- Where a frame is entered it is new. -/
theorem Entered.exists_fresh (entered : Entered env address args before x) :
    ∃ frame outer below, Execution.Fresh env.maxDepth x frame outer below := by
  cases entered with
  | @outermost f owner type x found count entered =>
    obtain ⟨locals, enters⟩ := Exec.enters_of_enterFunction entered
    exact ⟨_, _, _, enters.fresh rfl rfl (enters.coherent .nil (Frame.Nested.nil.enter f owner locals _))⟩
  | inner stands frames stepped more =>
    exact (Exec.moves_of_step frames stepped).exists_fresh stands.coherent more

/-- A step enters one frame at most. -/
theorem Execution.Moves.length_le {maxDepth : Nat} (moves : Execution.Moves maxDepth x y) :
    y.frames.length ≤ x.frames.length + 1 := by
  cases moves with
  | leave frames _ _ _ remain _ =>
    rw [frames, remain, List.length_cons]
    omega
  | @run frame outer code z frames _ _ _ advanced _ ends =>
    have before : z.frames.length = x.frames.length := by rw [frames, advanced]; rfl
    cases ends with
    | stay stays =>
      rw [stays.length]
      omega
    | unwind stays unwinds =>
      have within := (List.getElem?_eq_some_iff.1 unwinds.at_).1
      rw [stays.length] at within
      rw [unwinds.frames]
      split_ifs <;>
      · simp only [List.length_cons, List.length_drop, stays.length]
        omega
    | construct stays _ _ enters | call stays _ enters =>
      rw [enters.result]
      simp only [List.length_cons, stays.length, before, Nat.le_refl]

/-- Each frame of a state was entered, and has not been removed since. -/
theorem Stands.exists_entered (stands : Stands env address args before y) :
    ∀ place < y.frames.length, ∃ x, Entered env address args before x ∧ x.frames.length = place + 1 ∧
      Exec.Above env x y := by
  obtain ⟨f, owner, type, x, found, count, entered, reaches⟩ := stands
  induction reaches with
  | refl =>
    intro place within
    obtain ⟨locals, enters⟩ := Exec.enters_of_enterFunction entered
    have one : x.frames.length = 1 := by rw [enters.result]; rfl
    obtain rfl : place = 0 := by omega
    exact ⟨x, .outermost found count entered, one, .refl⟩
  | @step y z frame outer reaches frames stepped ih =>
    intro place within
    by_cases old : place < y.frames.length
    · obtain ⟨w, entered', length, above⟩ := ih place old
      exact ⟨w, entered', length, above.step frames stepped (by omega)⟩
    · have one := (Exec.moves_of_step frames stepped).length_le
      exact ⟨z, .inner ⟨f, owner, type, x, found, count, entered, reaches⟩ frames stepped (by omega), by omega,
        .refl⟩

/-- In a call from outside, of a checked function or not, every frame is entered, by some state, over entries that
stay below its label until it is removed; and it is removed by putting its results in their place. -/
theorem open_of_entered (env : Environment σ) (address : Nat) (args : List Value) (before : Store × σ) :
    (∀ y, Stands env address args before y → ∀ place < y.frames.length,
      ∃ x, Entered env address args before x ∧ x.frames.length = place + 1 ∧ Exec.Above env x y) ∧
    ∀ x, Entered env address args before x → ∃ frame outer below, x.frames = frame :: outer ∧ frame.pc = 0 ∧
      x.stack.entries = .label frame.labelArity :: below ∧ (⟨below⟩ : Stack).labels = outer.length ∧
        ∀ y, Exec.Above env x y → Open env x frame below y := by
  refine ⟨fun y stands => stands.exists_entered, fun x entered => ?_⟩
  obtain ⟨frame, outer, below, fresh⟩ := entered.exists_fresh
  refine ⟨frame, outer, below, fresh.frames, fresh.start, ?_, fresh.labels, fun y above => fresh.isOpen above⟩
  rw [fresh.stack]

/-- A store whose function jumps out of a block to the loop around it, over a value in each. -/
def restartsOver : Store :=
  ⟨#[some (constantly [.instr "const" (some .i32) [.number ⟨5, "5"⟩] none,
    .loop (.ofString "l") none [.instr "const" (some .i32) [.number ⟨1, "1"⟩] none,
      .block (.ofString "b") [.instr "const" (some .i32) [.number ⟨2, "2"⟩] none,
        .instr "br" none [.number ⟨1, "1"⟩] none] none]])],
    #[⟨[], [0], [], [], [], []⟩]⟩

/-- The jump leaves the block, both values and the label of the block, and the loop starts again over the value that
was there when it was entered. -/
theorem open_of_entered_restartsOver : ∃ x y z : Execution Unit,
    Entered (alone.withDepth 3) 0 [] (restartsOver, ()) x ∧ Exec.Above (alone.withDepth 3) x y ∧
    y.stack.entries = [.value (.i32 2), .label 0, .value (.i32 1), .label 0, .value (.i32 5), .label 1] ∧
    y.frames.length = 3 ∧
    (∃ innermost outer, y.frames = innermost :: outer ∧
      Exec.step (alone.withDepth 3) innermost outer y = .ok () z) ∧
    z.stack.entries = [.label 0, .value (.i32 5), .label 1] ∧ z.frames.length = 2 := by
  have entered : Entered (alone.withDepth 3) 0 [] (restartsOver, ()) _ :=
    .inner ⟨_, _, _, _, rfl, rfl, rfl, .step .refl rfl rfl⟩ rfl rfl (by decide)
  obtain ⟨frame, outer, below, frames, -, entries, -, opened⟩ :=
    (open_of_entered (alone.withDepth 3) 0 [] (restartsOver, ())).2 _ entered
  cases frames
  cases entries
  have from_ {x y : Execution Unit} (_ : Entered (alone.withDepth 3) 0 [] (restartsOver, ()) x)
      (above : Exec.Above (alone.withDepth 3) x y) : Exec.Above (alone.withDepth 3) x y := above
  have above := from_ entered
    (.step (.step (.step .refl rfl rfl (by decide)) rfl rfl (by decide)) rfl rfl (by decide))
  have restarted := ((opened _ above).restarts rfl rfl rfl rfl (.br rfl) rfl).2 ⟨by decide, rfl⟩
  exact ⟨_, _, _, entered, above, rfl, rfl, ⟨_, _, rfl, restarted⟩, rfl, rfl⟩

end

end WasmEngine
