import WasmEngine.Proofs.Machine.DepthBound
import WasmEngine.Proofs.Machine.Moves

/-!
# Frames and labels stay in step

In every state of the loop there is one label for each frame, and each frame belongs to the function frame
nearest below it (`inStep_of_stands`).  The bodies need not be checked: a move that would break this is refused.
-/

namespace WasmEngine

open Outcome Structured

namespace Frame

/-- Whether the frame is the one of a function. -/
def isCall (frame : Frame) : Bool :=
  match frame.kind with
  | .function .. => true
  | _ => false

/-- The path of a frame leads to a sequence, and the frame stands at an instruction of it or at its end. -/
def Placed (frame : Frame) : Prop := ∃ code, frame.code = .ok code ∧ frame.pc ≤ code.length

variable {f g : Frame}

theorem isCall_outline (f : Frame) : f.outline.isCall = f.isCall := by
  obtain ⟨func, path, pc, kind, arity, function⟩ := f
  cases kind <;> rfl

theorem labelArity_outline (f : Frame) : f.outline.labelArity = f.labelArity := by
  obtain ⟨func, path, pc, kind, arity, function⟩ := f
  cases kind <;> rfl

theorem isCall_of_outline (same : g.outline = f.outline) : g.isCall = f.isCall := by
  rw [← isCall_outline g, same, isCall_outline]

theorem labelArity_of_outline (same : g.outline = f.outline) : g.labelArity = f.labelArity := by
  rw [← labelArity_outline g, same, labelArity_outline]

theorem function_of_outline (same : g.outline = f.outline) : g.function = f.function :=
  (congrArg Frame.function same : g.outline.function = f.outline.function)

theorem func_of_outline (same : g.outline = f.outline) : g.func = f.func :=
  (congrArg Frame.func same : g.outline.func = f.outline.func)

theorem isLoop_of_outline (same : g.outline = f.outline) : g.isLoop = f.isLoop := by
  rw [← withLocals_isLoop [] g, ← withLocals_isLoop [] f]
  exact congrArg isLoop same

theorem code_of_outline (same : g.outline = f.outline) : g.code = f.code :=
  (congrArg Frame.code same : g.outline.code = f.outline.code)

theorem pc_of_outline (same : g.outline = f.outline) : g.pc = f.pc :=
  (congrArg Frame.pc same : g.outline.pc = f.outline.pc)

/-- A frame with the outline of a placed one is placed. -/
theorem placed_of_outline (same : g.outline = f.outline) (placed : f.Placed) : g.Placed := by
  obtain ⟨code, runs, le⟩ := placed
  refine ⟨code, (code_of_outline same).trans runs, ?_⟩
  rwa [pc_of_outline same]

/-- Frames, the innermost first, of calls inside each other and of the constructs in them. -/
inductive Nested : List Frame → Prop
  | nil : Nested []
  | call {f : Frame} {frames : List Frame} (isCall : f.isCall = true) (place : f.function = frames.length)
      (placed : f.Placed) (around : Nested frames) : Nested (f :: frames)
  | construct {f g : Frame} {frames : List Frame} (inside : f.isCall = false)
      (function : f.function = g.function) (func : f.func = g.func) (placed : f.Placed)
      (around : Nested (g :: frames)) : Nested (f :: g :: frames)

namespace Nested

variable {frames others : List Frame}

/-- The innermost of nested frames is placed. -/
theorem placed (nested : Nested (f :: frames)) : f.Placed := by
  cases nested <;> assumption

/-- What is outside a frame is nested too. -/
theorem tail (nested : Nested (f :: frames)) : Nested frames := by
  cases nested <;> assumption

/-- Nested frames without the innermost ones are nested. -/
theorem drop (nested : Nested frames) (n : Nat) : Nested (frames.drop n) := by
  induction n with
  | zero => exact nested
  | succ n ih =>
    rw [← List.tail_drop]
    cases rest : frames.drop n with
    | nil => exact .nil
    | cons f others =>
      rw [rest] at ih
      exact ih.tail

/-- The innermost frame may stand elsewhere in its sequence. -/
theorem move (nested : Nested (f :: frames)) {pc : Nat} (placed : Placed { f with pc }) :
    Nested ({ f with pc } :: frames) := by
  cases nested with
  | call isCall place _ around => exact .call isCall place placed around
  | construct inside function func _ around => exact .construct inside function func placed around

/-- Nesting is a matter of the outlines. -/
theorem of_outlines (nested : Nested frames) (same : others.map outline = frames.map outline) :
    Nested others := by
  induction nested generalizing others with
  | nil =>
    rw [List.map_nil, List.map_eq_nil_iff] at same
    exact same ▸ .nil
  | @call f frames isCall place placed around ih =>
    obtain ⟨g, rest, rfl, first, same⟩ := List.map_eq_cons_iff.1 same
    refine .call ?_ ?_ (placed_of_outline first placed) (ih same)
    · rw [isCall_of_outline first, isCall]
    · have length := congrArg List.length same
      rw [List.length_map, List.length_map] at length
      rw [function_of_outline first, place, length]
  | @construct f f' frames inside function func placed around ih =>
    obtain ⟨g, rest, rfl, first, same⟩ := List.map_eq_cons_iff.1 same
    have nested := ih same
    obtain ⟨g', rest, rfl, second, -⟩ := List.map_eq_cons_iff.1 same
    refine .construct ?_ ?_ ?_ (placed_of_outline first placed) nested
    · rw [isCall_of_outline first, inside]
    · rw [function_of_outline first, function_of_outline second, function]
    · rw [func_of_outline first, func_of_outline second, func]

/-- The frame of a construct of the sequence that runs comes on top. -/
theorem child (nested : Nested (f :: frames)) {code : List Node} (runs : f.code = .ok code) {step : Step}
    (opens : ∃ body, ∀ name, follow name code [step] = .ok body) (arity : Nat) :
    Nested (f.child step arity :: f :: frames) := by
  obtain ⟨body, leads⟩ := opens
  refine .construct ?_ rfl rfl ⟨body, ?_, Nat.zero_le _⟩ nested
  · cases step <;> rfl
  · exact (follow_append runs).trans (leads _)

/-- The frame of a call comes on top. -/
theorem enter (nested : Nested frames) (func : Func) (owner : Nat) (locals : List Value) (arity : Nat) :
    Nested (.call func owner locals arity frames.length :: frames) :=
  .call rfl rfl ⟨func.body, rfl, Nat.zero_le _⟩ nested

/-- The outermost of nested frames is a call. -/
theorem exists_last (nested : Nested frames) (some : frames ≠ []) :
    ∃ f, frames.getLast? = .some f ∧ f.isCall = true := by
  induction nested with
  | nil => exact absurd rfl some
  | @call f frames isCall _ _ _ ih =>
    cases frames with
    | nil => exact ⟨f, rfl, isCall⟩
    | cons g rest =>
      rw [List.getLast?_cons_cons]
      exact ih (List.cons_ne_nil g rest)
  | construct _ _ _ _ _ ih =>
    rw [List.getLast?_cons_cons]
    exact ih (List.cons_ne_nil _ _)

/-- Counted from the outermost frame, `function` is the position of the nearest frame of a function at or below
a frame, which runs the same function. -/
theorem nearest (nested : Nested frames) {i : Nat} {f : Frame} (at_ : frames.reverse[i]? = some f) :
    ∃ g, f.function ≤ i ∧ frames.reverse[f.function]? = some g ∧ g.isCall = true ∧ g.func = f.func ∧
      ∀ j h, f.function < j → j ≤ i → frames.reverse[j]? = some h → h.isCall = false := by
  induction nested generalizing i f with
  | nil => cases at_
  | @call f₀ frames isCall place placed around ih =>
    rw [List.reverse_cons] at at_ ⊢
    by_cases outer : i < frames.length
    · rw [List.getElem?_append_left (by simpa using outer)] at at_
      obtain ⟨g, le, here, isCall, func, between⟩ := ih at_
      refine ⟨g, le, ?_, isCall, func, fun j h above below here => between j h above below ?_⟩
      · rw [List.getElem?_append_left (by simp; omega), here]
      · rwa [List.getElem?_append_left (by simp; omega)] at here
    · have last : i = frames.length := by
        have bound := (List.getElem?_eq_some_iff.1 at_).1
        simp at bound
        omega
      subst last
      have is : (frames.reverse ++ [f₀])[frames.length]? = some f₀ := by simp
      obtain rfl : f₀ = f := Option.some.inj (is.symm.trans at_)
      refine ⟨f₀, Nat.le_of_eq place, by rw [place, is], isCall, rfl, fun j h above below => ?_⟩
      omega
  | @construct f₀ g₀ frames inside function func placed around ih =>
    rw [List.reverse_cons] at at_ ⊢
    by_cases outer : i < frames.length + 1
    · rw [List.getElem?_append_left (by simpa using outer)] at at_
      obtain ⟨g, le, here, isCall, func, between⟩ := ih at_
      refine ⟨g, le, ?_, isCall, func, fun j h above below here => between j h above below ?_⟩
      · rw [List.getElem?_append_left (by simp; omega), here]
      · rwa [List.getElem?_append_left (by simp; omega)] at here
    · have last : i = frames.length + 1 := by
        have bound := (List.getElem?_eq_some_iff.1 at_).1
        simp at bound
        omega
      subst last
      have is : ((g₀ :: frames).reverse ++ [f₀])[frames.length + 1]? = some f₀ := by simp
      obtain rfl : f₀ = f := Option.some.inj (is.symm.trans at_)
      obtain ⟨g, le, here, isCall, func', between⟩ :=
        ih (i := frames.length) (f := g₀) (by simp)
      rw [← function] at le here between
      refine ⟨g, Nat.le_succ_of_le le, ?_, isCall, func'.trans func.symm, fun j h above below there => ?_⟩
      · rw [List.getElem?_append_left (by simp; omega), here]
      · by_cases innermost : j = frames.length + 1
        · subst innermost
          rw [is] at there
          cases there
          exact inside
        · rw [List.getElem?_append_left (by simp; omega)] at there
          exact between j h above (by omega) there

end Nested

end Frame

/-! ## Labels -/

/-- A stack has a label for each frame, the innermost first, and no value below the last. -/
inductive Aligned : List Frame → Stack → Prop
  | nil : Aligned [] ⟨[]⟩
  | cons {frame : Frame} {frames : List Frame} {below : List StackEntry} {s : Stack}
      (floor : s.floor = .label frame.labelArity :: below) (rest : Aligned frames ⟨below⟩) :
      Aligned (frame :: frames) s

/-- The arity of a label. -/
def StackEntry.label? : StackEntry → Option Nat
  | .label arity => some arity
  | .value _ => none

/-- Operands hold no labels. -/
theorem Stack.filterMap_label?_stacked (below : List StackEntry) (vs : List Value) :
    (stacked below vs).entries.filterMap StackEntry.label? = below.filterMap StackEntry.label? := by
  have none : (vs.map StackEntry.value).reverse.filterMap StackEntry.label? = [] := by
    rw [List.filterMap_eq_nil_iff]
    intro entry inside
    obtain ⟨v, -, rfl⟩ := List.mem_map.1 (List.mem_reverse.1 inside)
    rfl
  rw [stacked, List.filterMap_append, none, List.nil_append]

namespace Aligned

variable {frames others : List Frame} {s s' : Stack}

/-- Frames stay aligned when their outlines and the labels below the operands are as they were. -/
theorem of_outlines (aligned : Aligned frames s) (same : others.map Frame.outline = frames.map Frame.outline)
    (some : frames ≠ []) (level : s'.floor = s.floor) : Aligned others s' := by
  induction aligned generalizing others s' with
  | nil => exact absurd rfl some
  | @cons frame frames below s floor rest ih =>
    obtain ⟨g, others, rfl, first, same⟩ := List.map_eq_cons_iff.1 same
    refine .cons (by rw [level, floor, Frame.labelArity_of_outline first]) ?_
    cases frames with
    | nil =>
      rw [List.map_nil, List.map_eq_nil_iff] at same
      subst same
      exact rest
    | cons => exact ih same nofun rfl

/-- Values that are put on a stack that has a label leave the labels. -/
theorem stacked {below : List StackEntry} (aligned : Aligned frames ⟨below⟩) (some : frames ≠ [])
    (vs : List Value) : Aligned frames (Stack.stacked below vs) :=
  aligned.of_outlines rfl some (Stack.floor_stacked below vs)

/-- The label of a frame is found by counting, and the frames outside of it are aligned below. -/
theorem findLabel? (aligned : Aligned frames s) {depth : Nat} {target : Frame}
    (at_ : frames[depth]? = some target) : ∃ below,
      Stack.findLabel? depth s.entries = some (target.labelArity, below) ∧
        Aligned (frames.drop (depth + 1)) ⟨below⟩ := by
  induction aligned generalizing depth with
  | nil => cases at_
  | @cons frame frames below s floor rest ih =>
    obtain ⟨vs, here, -⟩ := Stack.exists_stacked s
    rw [here, floor, findLabel?_stacked]
    cases depth with
    | zero =>
      cases at_
      exact ⟨below, rfl, rest⟩
    | succ depth => exact ih at_

/-- The labels of the stack are the arities of the frames, in order. -/
theorem labels (aligned : Aligned frames s) :
    s.entries.filterMap StackEntry.label? = frames.map Frame.labelArity := by
  induction aligned with
  | nil => rfl
  | @cons frame frames below s floor rest ih =>
    obtain ⟨vs, here, -⟩ := Stack.exists_stacked s
    rw [here, Stack.filterMap_label?_stacked, floor, List.map_cons, ← ih]
    rfl

/-- There are as many labels as frames. -/
theorem count (aligned : Aligned frames s) : s.labels = frames.length := by
  rw [← List.length_map Frame.labelArity, ← aligned.labels, Stack.labels]
  induction s.entries with
  | nil => rfl
  | cons entry entries ih =>
    cases entry with
    | value v => exact ih
    | label arity =>
      rw [List.countP_cons_of_pos rfl, ih]
      rfl

/-- The bottom of the stack is a label. -/
theorem exists_last (aligned : Aligned frames s) (some : frames ≠ []) :
    ∃ arity, s.entries.getLast? = .some (.label arity) := by
  induction aligned with
  | nil => exact absurd rfl some
  | @cons frame frames below s floor rest ih =>
    obtain ⟨vs, here, -⟩ := Stack.exists_stacked s
    rw [here, Stack.stacked, floor, List.getLast?_append_cons]
    cases frames with
    | nil =>
      cases rest
      exact ⟨_, rfl⟩
    | cons =>
      obtain ⟨arity, last⟩ := ih (List.cons_ne_nil _ _)
      cases below with
      | nil => cases last
      | cons => exact ⟨arity, by rw [List.getLast?_cons_cons, last]⟩

end Aligned

/-! ## States of the loop -/

variable {σ : Type}

namespace Execution

/-- As long as frames are left, they are nested and have their labels, and there are no more than there may be. -/
def Coherent (maxDepth : Nat) (x : Execution σ) : Prop :=
  x.frames ≠ [] → Frame.Nested x.frames ∧ Aligned x.frames x.stack ∧ x.frames.length ≤ maxDepth

variable {maxDepth : Nat} {x y : Execution σ}

/-- What leaves frames and labels as they are keeps them coherent. -/
theorem Stays.coherent (stays : Stays x y) (coherent : Coherent maxDepth x) : Coherent maxDepth y := by
  intro some
  have length := stays.length
  have some' : x.frames ≠ [] := by
    intro none
    rw [none, List.length_nil, List.length_eq_zero_iff] at length
    exact some length
  obtain ⟨nested, aligned, bound⟩ := coherent some'
  exact ⟨nested.of_outlines stays.frames, aligned.of_outlines stays.frames some' stays.floor,
    Nat.le_trans (Nat.le_of_eq length) bound⟩

/-- A label comes with each frame. -/
theorem Enters.coherent {frame : Frame} (enters : Enters maxDepth frame x y)
    (aligned : Aligned x.frames x.stack) (nested : Frame.Nested (frame :: x.frames)) :
    Coherent maxDepth y := by
  intro _
  rw [enters.result]
  exact ⟨nested, .cons rfl aligned, enters.room⟩

/-- Frames and labels are left together. -/
theorem Unwinds.coherent {depth : Nat} {target : Frame} (unwinds : Unwinds depth target x y)
    (coherent : Coherent maxDepth x) : Coherent maxDepth y := by
  intro some
  have within : depth < x.frames.length := (List.getElem?_eq_some_iff.1 unwinds.at_).1
  have some' : x.frames ≠ [] := List.ne_nil_of_length_pos (by omega)
  obtain ⟨nested, aligned, bound⟩ := coherent some'
  obtain ⟨below, here, rest⟩ := aligned.findLabel? unwinds.at_
  obtain ⟨arity, below', vs, _, found, -, stack⟩ := unwinds.stack
  cases here.symm.trans found
  have outer : x.frames.drop depth = target :: x.frames.drop (depth + 1) := by
    rw [List.drop_eq_getElem_cons within]
    exact congrArg (· :: _) (List.getElem?_eq_some_iff.1 unwinds.at_).2
  have length : (x.frames.drop (depth + 1)).length < x.frames.length := by
    rw [List.length_drop]
    omega
  have frames := unwinds.frames
  cases loop : target.isLoop with
  | false =>
    rw [loop, if_neg (by decide)] at frames stack
    rw [frames] at some ⊢
    rw [stack]
    exact ⟨nested.drop _, rest.stacked some vs, by omega⟩
  | true =>
    rw [loop, if_pos rfl] at frames stack
    have nested' := nested.drop depth
    rw [outer] at nested'
    obtain ⟨code, runs, -⟩ := nested'.placed
    rw [frames, stack]
    refine ⟨nested'.move ⟨code, runs, Nat.zero_le _⟩, .cons (Stack.floor_stacked _ vs) rest, ?_⟩
    rw [List.length_cons]
    omega

/-- At its end a frame is left with its label. -/
theorem aligned_of_exitLabel {frame : Frame} {outer : List Frame} {s s' : Stack}
    (aligned : Aligned (frame :: outer) s) (some : outer ≠ [])
    (left : Stack.exitLabel frame.arity s = .ok () s') : Aligned outer s' := by
  obtain ⟨vs, rest, popped, done⟩ := run_bind_eq_ok_iff.1 left
  have level : rest.floor = s.floor := by
    have ends := (Stack.local_popN frame.arity).respects s
    rwa [popped] at ends
  have aligned' := aligned.of_outlines rfl nofun level
  obtain ⟨below, here, outside⟩ := aligned'.findLabel? (List.getElem?_cons_zero : _ = Option.some frame)
  obtain ⟨_, _, look, done'⟩ := run_bind_eq_ok_iff.1 done
  cases look
  rw [here] at done'
  cases done'
  exact outside.stacked some vs

/-- What the end of an instruction does to a coherent state whose innermost frame runs a sequence. -/
theorem Ends.coherent {frame : Frame} {outer : List Frame} {code : List Node}
    (ends : Ends maxDepth code x y) (frames : x.frames = frame :: outer) (runs : frame.code = .ok code)
    (coherent : Coherent maxDepth x) : Coherent maxDepth y := by
  cases ends with
  | stay stays => exact stays.coherent coherent
  | unwind stays unwinds => exact unwinds.coherent (stays.coherent coherent)
  | @construct z frame' outer' step arity stays frames' opens enters =>
    obtain ⟨nested, aligned, -⟩ := stays.coherent coherent (by rw [frames']; exact nofun)
    have same := stays.frames
    rw [frames, frames', List.map_cons, List.map_cons] at same
    have runs' : frame'.code = .ok code :=
      (Frame.code_of_outline (List.cons.inj same).1).trans runs
    rw [frames'] at nested
    refine enters.coherent aligned ?_
    rw [frames']
    exact nested.child runs' opens arity
  | @call z address owner type f locals stays found enters =>
    have some : z.frames ≠ [] := by
      intro none
      have same := stays.frames
      rw [none, frames, List.map_nil, List.map_cons] at same
      cases same
    obtain ⟨nested, aligned, -⟩ := stays.coherent coherent some
    exact enters.coherent aligned (nested.enter f owner locals _)

/-- The innermost frame of a coherent state moves on to the next instruction. -/
theorem Coherent.advance {frame : Frame} {outer : List Frame} {code : List Node} (coherent : Coherent maxDepth x)
    (frames : x.frames = frame :: outer) (runs : frame.code = .ok code) (here : frame.pc < code.length)
    (stack : y.stack = x.stack) (advanced : y.frames = frame.advance 1 :: outer) : Coherent maxDepth y := by
  intro _
  obtain ⟨nested, aligned, bound⟩ := coherent (by rw [frames]; exact nofun)
  rw [frames] at nested aligned bound
  rw [advanced, stack]
  have placed : Frame.Placed { frame with pc := frame.pc + 1 } := ⟨code, runs, here⟩
  refine ⟨nested.move placed, ?_, bound⟩
  cases aligned with
  | cons floor rest => exact .cons floor rest

/-- Every move of the machine keeps frames and labels coherent. -/
theorem Moves.coherent (moves : Moves maxDepth x y) (coherent : Coherent maxDepth x) :
    Coherent maxDepth y := by
  cases moves with
  | @leave frame outer code frames runs atEnd left remain functions =>
    intro some
    obtain ⟨nested, aligned, bound⟩ := coherent (by rw [frames]; exact nofun)
    rw [frames] at nested aligned bound
    rw [remain] at some ⊢
    exact ⟨nested.tail, aligned_of_exitLabel aligned some left, Nat.le_of_succ_le bound⟩
  | @run frame outer code z frames runs here stack advanced store ends =>
    exact ends.coherent advanced runs (coherent.advance frames runs here stack advanced)

end Execution

/-- A state in which the loop stands in a call from outside. -/
def Stands (env : Environment σ) (address : Nat) (args : List Value) (before : Store × σ)
    (y : Execution σ) : Prop :=
  ∃ f owner type x, before.1.func address = .ok ⟨type, .wasm f owner⟩ ∧ args.length = type.args.length ∧
    Exec.enterFunction env.maxDepth f owner type (castArgs args type) ⟨before.1, .empty, [], before.2⟩ =
      .ok () x ∧ Exec.Reaches env x y

/-- The frames of a state and the labels on its operand stack are in step. -/
structure InStep (maxDepth : Nat) (x : Execution σ) : Prop where
  /-- There are as many labels as frames. -/
  count : x.stack.labels = x.frames.length
  /-- A label has the arity of its frame, or none where that is a loop. -/
  labels : x.stack.entries.filterMap StackEntry.label? =
    x.frames.map fun f => if f.isLoop then 0 else f.arity
  /-- No value lies below the first label. -/
  bottom : ∃ arity, x.stack.entries.getLast? = some (.label arity)
  /-- The outermost frame is the one of a function. -/
  outermost : ∃ f, x.frames.getLast? = some f ∧ f.isCall = true
  /-- The function frame that a frame refers to is the nearest at or below it, and runs the same function. -/
  nearest : ∀ (i : Nat) (f : Frame), x.frames.reverse[i]? = some f → ∃ g : Frame, f.function ≤ i ∧
    x.frames.reverse[f.function]? = some g ∧ g.isCall = true ∧ g.func = f.func ∧
      ∀ (j : Nat) (h : Frame), f.function < j → j ≤ i → x.frames.reverse[j]? = some h → h.isCall = false
  /-- The path of each frame leads to a sequence in which it stands. -/
  placed : ∀ f ∈ x.frames, f.Placed
  bound : x.frames.length ≤ maxDepth

namespace Execution

variable {env : Environment σ} {x y : Execution σ}

/-- Coherent states are in step. -/
theorem Coherent.inStep {maxDepth : Nat} (coherent : Coherent maxDepth x) (some : x.frames ≠ []) :
    InStep maxDepth x := by
  obtain ⟨nested, aligned, bound⟩ := coherent some
  refine ⟨aligned.count, aligned.labels, aligned.exists_last some, nested.exists_last some,
    fun i f => nested.nearest, fun f inside => ?_, bound⟩
  obtain ⟨n, within, rfl⟩ := List.getElem_of_mem inside
  have rest := nested.drop n
  rw [List.drop_eq_getElem_cons within] at rest
  exact rest.placed

/-- Coherence is kept over every number of steps. -/
theorem Coherent.reaches (coherent : Coherent env.maxDepth x) (reaches : Exec.Reaches env x y) :
    Coherent env.maxDepth y := by
  induction reaches with
  | refl => exact coherent
  | step _ frames stepped ih => exact (Exec.moves_of_step frames stepped).coherent ih

end Execution

/-- Every state of a call is coherent. -/
theorem Stands.coherent {env : Environment σ} {address : Nat} {args : List Value} {before : Store × σ}
    {y : Execution σ} (stands : Stands env address args before y) : Execution.Coherent env.maxDepth y := by
  obtain ⟨f, owner, type, x, -, -, entered, reaches⟩ := stands
  obtain ⟨locals, enters⟩ := Exec.enters_of_enterFunction entered
  have start : Execution.Coherent env.maxDepth x :=
    enters.coherent .nil (Frame.Nested.nil.enter f owner locals _)
  exact start.reaches reaches

/-- In a call from outside, of a checked function or not, frames and labels are in step wherever the loop stands
with a frame left. -/
theorem inStep_of_stands {env : Environment σ} {address : Nat} {args : List Value} {before : Store × σ}
    {y : Execution σ} (stands : Stands env address args before y) (running : y.frames ≠ []) :
    InStep env.maxDepth y := stands.coherent.inStep running

/-- Inside the function that the first one calls, its result stands over the labels of both. -/
theorem inStep_of_stands_callsOnce : ∃ y, Stands (alone.withDepth 2) 0 [] (callsOnce, ()) y ∧
    y.frames.length = 2 ∧ y.stack.entries = [.value (.i32 7), .label 1, .label 1] ∧ InStep 2 y := by
  have stands : ∃ y, Stands (alone.withDepth 2) 0 [] (callsOnce, ()) y ∧ y.frames.length = 2 ∧
      y.stack.entries = [.value (.i32 7), .label 1, .label 1] :=
    ⟨_, ⟨_, _, _, _, rfl, rfl, rfl, .step (.step .refl rfl rfl) rfl rfl⟩, rfl, rfl⟩
  obtain ⟨y, stands, two, entries⟩ := stands
  refine ⟨y, stands, two, entries, inStep_of_stands stands ?_⟩
  intro none
  rw [none] at two
  cases two

end WasmEngine
