import WasmEngine.Proofs.Machine.FrameEffects
import WasmEngine.Proofs.Machine.Simulation

/-!
# What a step of a run can do

A step replaces the stack, lets the embedding change the world, drops frames or puts one more on them below
the bound, and writes to the store in one of three ways (`Store.Writes`).  A relation between executions that
allows each of these (`Exec.Allows`) relates the beginning of every instruction, and so of every run, to the
state in which it stands or ends, traps and other faults included (`Exec.Allows.run`).
-/

namespace WasmEngine

open Outcome

/-- The embedding changes the world as a relation says. -/
structure Environment.Keeps {σ : Type} (env : Environment σ) (W : σ → σ → Prop) : Prop where
  call (handle : Nat) (args : List Value) : Respects W (env.call handle args)
  observe (depth : Nat) (name : String) (w : σ) : W w (env.observe depth name w)

namespace Exec

variable {σ α β : Type}

/-- A relation between executions allows what a step can do under a bound on frames, if the embedding
changes the world as `W` says. -/
structure Allows (maxDepth : Nat) (W : σ → σ → Prop) (R : Execution σ → Execution σ → Prop) : Prop where
  refl (x : Execution σ) : R x x
  trans {x y z : Execution σ} : R x y → R y z → R x z
  stack (x : Execution σ) (stack : Stack) : R x { x with stack }
  world (x : Execution σ) {world : σ} (changes : W x.world world) : R x { x with world }
  frames (x : Execution σ) {frames : List Frame} (le : frames.length ≤ x.frames.length) :
    R x { x with frames }
  push (x : Execution σ) (frame : Frame) (lt : x.frames.length < maxDepth) :
    R x { x with frames := frame :: x.frames }
  store (x : Execution σ) {s : Store} (writes : x.store.Writes s) : R x { x with store := s }

namespace Allows

variable {maxDepth : Nat} {W : σ → σ → Prop} {R : Execution σ → Execution σ → Prop}
  (allows : Allows maxDepth W R)
include allows

/-- What can be done inside a frame is a part of what a step can do. -/
theorem quiet : Quiet R where
  refl := allows.refl
  trans := allows.trans
  stack x stack _ := allows.stack x stack
  locals x frames same := allows.frames x (by simpa using Nat.le_of_eq (congrArg List.length same))
  store := allows.store

/-- A sequence respects a relation that both parts respect. -/
theorem bind {m : Exec σ α} {f : α → Exec σ β} (first : Respects R m) (rest : ∀ a, Respects R (f a)) :
    Respects R (m >>= f) := Respects.bind allows.trans first rest

/-- The stack may be replaced as a whole. -/
theorem onStack (f : StackM α) : Respects R (onStack f : Exec σ α) := by
  intro ⟨store, stack, frames, world⟩
  simp only [Exec.onStack]
  split <;> exact allows.stack ⟨store, stack, frames, world⟩ _

/-- A step of the host respects every relation that its effect on the world does. -/
theorem onWorld {f : EStateM Halt σ α} (keeps : Respects W f) : Respects R (onWorld f) := by
  intro ⟨store, stack, frames, world⟩
  have changes := keeps world
  simp only [Exec.onWorld]
  cases now : f world <;>
  · rw [now] at changes
    exact allows.world ⟨store, stack, frames, world⟩ changes

/-! ## Frames -/

/-- Pushing a frame respects a relation that new frames do. -/
theorem pushFrame (frame : Frame) : Respects R (pushFrame maxDepth frame : Exec σ Unit) := by
  refine respects_get_bind fun x => ?_
  by_cases full : maxDepth ≤ x.frames.length
  · simp only [if_pos full]
    exact allows.refl x
  · simp only [if_neg full]
    exact allows.push x frame (Nat.lt_of_not_le full)

/-- Entering a function respects a relation that new frames do. -/
theorem enterFunction (f : Func) (owner : Nat) (type : FuncType) (args : List Value) :
    Respects R (enterFunction maxDepth f owner type args : Exec σ Unit) :=
  respects_look fun _ => allows.bind (allows.onStack _) fun _ => allows.pushFrame _

/-- Entering a block respects a relation that new frames do. -/
theorem enterBlock (step : Step) (result : Option Valtype) :
    Respects R (enterBlock maxDepth step result : Exec σ Unit) :=
  allows.bind allows.quiet.inside.top fun _ => allows.bind (allows.onStack _) fun _ => allows.pushFrame _

omit allows in
/-- Operations of the stack leave the frames alone. -/
theorem onStack_frames {f : StackM α} {x y : Execution σ} {a : α}
    (done : (Exec.onStack f : Exec σ α) x = .ok a y) : y.frames = x.frames := by
  obtain ⟨store, stack, frames, world⟩ := x
  simp only [Exec.onStack] at done
  split at done <;> cases done
  rfl

/-- The frames inside the target of a branch are dropped, and the target as well unless it is a loop. -/
theorem branch (depth : Nat) : Respects R (branch depth : Exec σ Unit) := by
  refine respects_get_bind fun x => ?_
  -- Taking operands leaves the frames, so that the ones that are set are still counted against them.
  have drop (keep : Bool) (frames : List Frame) (le : frames.length ≤ x.frames.length) :
      R x (final ((do
        let _ ← Exec.onStack (Stack.branch depth keep)
        setFrames frames : Exec σ Unit) x)) := by
    cases now : (Exec.onStack (Stack.branch depth keep) : Exec σ _) x with
    | ok a y =>
      have taken := allows.onStack (Stack.branch depth keep) x
      have kept := onStack_frames now
      rw [now] at taken
      rw [bind_ok now]
      exact allows.trans taken (allows.frames y (kept ▸ le))
    | error e y =>
      have taken := allows.onStack (Stack.branch depth keep) x
      rw [now] at taken
      rw [bind_error now]
      exact taken
  cases x.frames.head? with
  | none => exact allows.refl x
  | some frame =>
    cases at_ : x.frames[depth]? with
    | none => exact allows.refl x
    | some target =>
      have within : depth < x.frames.length := (List.getElem?_eq_some_iff.1 at_).1
      dsimp only
      split_ifs
      · exact drop true _ (by rw [List.length_cons, List.length_drop]; omega)
      · exact drop false _ (by rw [List.length_drop]; omega)
      · exact allows.refl x

/-! ## Runs -/

section

variable {env : Environment σ} (keeps : env.Keeps W) (bound : env.maxDepth = maxDepth)
include keeps bound

/-- Every instruction respects a relation that its primitive effects do. -/
theorem instruction (position : Nat) (node : Node) : Respects R (instruction env position node) := by
  subst bound
  exact allows.quiet.inside.instruction id allows.bind (fun _ _ => allows.onWorld (keeps.call _ _))
    allows.enterBlock allows.enterFunction position node
    fun _ _ _ _ => allows.quiet.inside.plain id allows.bind allows.branch _ _

omit bound in
/-- Observing a node changes nothing. -/
theorem observe (node : Node) : Respects R (observe env node) := fun x =>
  allows.world x (keeps.observe _ _ _)

/-- The frame at the front is left at its end, and moves on to the next instruction before that runs. -/
theorem step {x : Execution σ} {frame : Frame} {outer : List Frame} (frames : x.frames = frame :: outer) :
    R x (final (step env frame outer x)) := by
  have set (next : List Frame) (le : next.length ≤ outer.length + 1) (m : Exec σ Unit)
      (rest : Respects R m) : R x (final ((do setFrames next; m : Exec σ Unit) x)) :=
    allows.trans (allows.frames x (by rw [frames]; exact le)) (rest _)
  unfold Exec.step
  cases frame.code with
  | error e => exact allows.refl x
  | ok code =>
    simp only [Exec.ofResult, pure_bind]
    cases code[frame.pc]? with
    | none => exact set outer (Nat.le_succ _) _ (allows.onStack _)
    | some node =>
      exact set _ (by simp) _
        (allows.bind (allows.observe keeps node) fun _ => allows.instruction keeps bound _ node)

/-- A run of any number of steps. -/
theorem run (fuel : Nat) : Respects R (run env fuel) := by
  induction fuel with
  | zero =>
    intro x
    cases frames : x.frames with
    | nil =>
      rw [Structured.run_nil 0 frames]
      exact allows.refl x
    | cons frame outer =>
      rw [Structured.run_zero frames]
      exact allows.refl x
  | succ fuel ih =>
    intro x
    cases frames : x.frames with
    | nil =>
      rw [Structured.run_nil _ frames]
      exact allows.refl x
    | cons frame outer =>
      rw [Structured.run_succ fuel frames, Structured.runFrom]
      have first := allows.step keeps bound frames
      cases now : Exec.step env frame outer x with
      | ok _ y =>
        rw [now] at first
        rw [bind_ok now]
        exact allows.trans first (ih y)
      | error e y =>
        rw [now] at first
        rw [bind_error now]
        exact first

/-- A call of a function of the store, up to its results. -/
theorem runFunction (fuel : Nat) (f : Func) (owner : Nat) (type : FuncType) (args : List Value) :
    Respects R (runFunction env fuel f owner type args) := by
  unfold Exec.runFunction
  rw [bound]
  refine allows.bind (allows.enterFunction _ _ _ _) fun _ => allows.bind (allows.run keeps bound fuel)
    fun _ => allows.bind (allows.onStack _) fun _ => respects_look fun _ => ?_
  dsimp only
  split
  · exact allows.quiet.inside.pure _
  · exact allows.quiet.inside.fail _

end

end Allows

end Exec

end WasmEngine
