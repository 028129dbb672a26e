import WasmEngine.Proofs.Machine.FrameEffects
import WasmEngine.Proofs.Machine.Unwinding

/-!
# Moves of the loop

A step of the loop leaves the innermost frame at its end, or moves it on and runs an instruction.  Whatever else
the instruction does, in the end it stays in the frame, unwinds to a label, or enters one more frame over a label
of its own (`Moves`).  What is true of the frames and labels in every state of the loop follows from this alone.
-/

namespace WasmEngine

open Outcome Structured

/-- Writing an entry that is no function leaves the functions of a store as they were. -/
theorem Store.func_put {s : Store} {a : Nat} {e entry : StoreEntry} (here : s.get? a = some e)
    (before : e.kind ≠ .func) (after : entry.kind ≠ .func) : (s.put a entry).func = s.func := by
  funext b
  unfold Store.func
  rw [Store.get?_put (Store.lt_size_of_get? here)]
  by_cases same : b = a
  · subst same
    rw [if_pos rfl, here]
    cases e <;> cases entry <;> first | rfl | exact absurd rfl before | exact absurd rfl after
  · rw [if_neg same]

/-- No instruction changes a function of the store. -/
theorem Store.Writes.func {s s' : Store} (writes : s.Writes s') : s'.func = s.func := by
  cases writes with
  | assign assigned =>
    rw [Store.assign_eq] at assigned
    split at assigned
    · cases assigned
    · next here =>
      split_ifs at assigned
      cases assigned
      exact Store.func_put (Store.global_eq_ok.1 here) nofun nofun
  | grow grown =>
    rw [Store.growMemory_eq] at grown
    split at grown
    · cases grown
    · next here =>
      cases grown
      exact Store.func_put (Store.memory_eq_ok.1 here) nofun nofun
  | write written =>
    rw [Store.writeMemory_eq] at written
    split at written
    · cases written
    · next here =>
      split_ifs at written
      cases written
      exact Store.func_put (Store.memory_eq_ok.1 here) nofun nofun

variable {σ : Type}

namespace Execution

/-- Only what lies inside the innermost frame, the locals of functions and the world are different, and of the
store no function. -/
structure Stays (x y : Execution σ) : Prop where
  floor : y.stack.floor = x.stack.floor
  frames : y.frames.map Frame.outline = x.frames.map Frame.outline
  functions : y.store.func = x.store.func

namespace Stays

theorem refl (x : Execution σ) : Stays x x := ⟨rfl, rfl, rfl⟩

theorem trans {x y z : Execution σ} (first : Stays x y) (second : Stays y z) : Stays x z :=
  ⟨second.floor.trans first.floor, second.frames.trans first.frames, second.functions.trans first.functions⟩

/-- A step that stays in its frames has as many of them after it. -/
theorem length {x y : Execution σ} (stays : Stays x y) : y.frames.length = x.frames.length := by
  simpa using congrArg List.length stays.frames

theorem quiet : Exec.Quiet (σ := σ) Stays where
  refl := refl
  trans := trans
  stack _ _ level := ⟨level, rfl, rfl⟩
  locals _ _ same := ⟨rfl, same, rfl⟩
  store _ _ writes := ⟨rfl, rfl, writes.func⟩

/-- A step that respects the relation on states stays in its frames. -/
theorem of_respects {α : Type} {m : Exec σ α} {x y : Execution σ} {a : α} (stays : Respects Stays m)
    (done : m x = .ok a y) : Stays x y := by
  have ends := stays x
  rwa [done] at ends

end Stays

/-- A frame is entered over a label of its own. -/
structure Enters (maxDepth : Nat) (frame : Frame) (x y : Execution σ) : Prop where
  room : x.frames.length < maxDepth
  result : y = { x with stack := ⟨.label frame.labelArity :: x.stack.entries⟩, frames := frame :: x.frames }

/-- The frames up to a target are left with the values that its label carries; a loop starts again. -/
structure Unwinds (depth : Nat) (target : Frame) (x y : Execution σ) : Prop where
  at_ : x.frames[depth]? = some target
  frames : y.frames = if target.isLoop then { target with pc := 0 } :: x.frames.drop (depth + 1)
    else x.frames.drop (depth + 1)
  stack : ∃ arity below vs rest, Stack.findLabel? depth x.stack.entries = some (arity, below) ∧
    Stack.popN arity x.stack = .ok vs rest ∧
    y.stack = Stack.stacked (if target.isLoop then .label arity :: below else below) vs
  functions : y.store.func = x.store.func

end Execution

namespace Exec

open Execution

variable {x y : Execution σ} {maxDepth : Nat}

/-- Pushing a frame succeeds below the bound only. -/
theorem pushFrame_eq_ok {frame : Frame} (pushed : pushFrame maxDepth frame x = .ok () y) :
    x.frames.length < maxDepth ∧ y = { x with frames := frame :: x.frames } := by
  rw [pushFrame_eq] at pushed
  split_ifs at pushed with full
  cases pushed
  exact ⟨Nat.lt_of_not_le full, rfl⟩

/-- Entering a function opens a call of it. -/
theorem enters_of_enterFunction {f : Func} {owner : Nat} {type : FuncType} {args : List Value}
    (entered : enterFunction maxDepth f owner type args x = .ok () y) :
    ∃ locals, Enters maxDepth (.call f owner locals type.result.length x.frames.length) x y := by
  obtain ⟨room, rfl⟩ := pushFrame_eq_ok entered
  exact ⟨_, room, rfl⟩

/-- Entering a block opens a child of the innermost frame. -/
theorem enters_of_enterBlock {step : Step} {result : Option Valtype}
    (entered : enterBlock maxDepth step result x = .ok () y) :
    ∃ frame outer, x.frames = frame :: outer ∧
      Enters maxDepth (frame.child step result.toList.length) x y := by
  obtain ⟨store, stack, frames, world⟩ := x
  cases frames with
  | nil => cases entered
  | cons frame outer =>
    obtain ⟨room, rfl⟩ := pushFrame_eq_ok entered
    exact ⟨frame, outer, rfl, room, rfl⟩

/-- An operation of the stack changes the stack only. -/
theorem onStack_eq_ok {α : Type} {f : StackM α} {a : α} (done : onStack f x = .ok a y) :
    ∃ s, f x.stack = .ok a s ∧ y = { x with stack := s } := by
  obtain ⟨store, stack, frames, world⟩ := x
  simp only [onStack] at done
  split at done
  · next s now =>
    cases done
    exact ⟨s, now, rfl⟩
  · cases done

/-- A branch leaves the frames inside its target. -/
theorem unwinds_of_branch {depth : Nat} (branched : branch depth x = .ok () y) :
    ∃ target, Unwinds depth target x y := by
  obtain ⟨store, stack, frames, world⟩ := x
  cases frames with
  | nil => cases branched
  | cons frame outer =>
    by_cases within : frame.function + depth < (frame :: outer).length
    · have bound : depth < (frame :: outer).length := by omega
      have at_ : (frame :: outer)[depth]? = some (frame :: outer)[depth] := List.getElem?_eq_getElem bound
      rw [branch_eq rfl at_ within] at branched
      obtain ⟨n, z, taken, set⟩ := run_bind_eq_ok_iff.1 branched
      obtain ⟨s, unwound, rfl⟩ := onStack_eq_ok taken
      cases set
      refine ⟨_, at_, rfl, ?_, rfl⟩
      obtain ⟨_, _, here, unwound⟩ := run_bind_eq_ok_iff.1 unwound
      cases here
      cases found : Stack.findLabel? depth stack.entries with
      | none =>
        rw [found] at unwound
        cases unwound
      | some label =>
        rw [found] at unwound
        obtain ⟨vs, rest, popped, last⟩ := run_bind_eq_ok_iff.1 unwound
        cases last
        exact ⟨label.1, label.2, vs, rest, rfl, popped, rfl⟩
    · rw [branch_eq_error rfl within] at branched
      cases branched

end Exec

namespace Execution

/-- What an instruction of a sequence does to the frames and labels. -/
inductive Ends (maxDepth : Nat) (code : List Node) (x y : Execution σ) : Prop
  | stay (stays : Stays x y)
  | unwind {z : Execution σ} {depth : Nat} {target : Frame} (stays : Stays x z)
      (unwinds : Unwinds depth target z y)
  | construct {z : Execution σ} {frame : Frame} {outer : List Frame} {step : Step} {arity : Nat}
      (stays : Stays x z) (frames : z.frames = frame :: outer)
      (opens : ∃ body, ∀ name, Frame.follow name code [step] = .ok body)
      (enters : Enters maxDepth (frame.child step arity) z y)
  | call {z : Execution σ} {address owner : Nat} {type : FuncType} {f : Func} {locals : List Value}
      (stays : Stays x z) (found : z.store.func address = .ok ⟨type, .wasm f owner⟩)
      (enters : Enters maxDepth (.call f owner locals type.result.length z.frames.length) z y)

/-- Moves that end an instruction may be preceded by steps inside the frame. -/
theorem Ends.after {maxDepth : Nat} {code : List Node} {x y z : Execution σ} (before : Stays x z)
    (ends : Ends maxDepth code z y) : Ends maxDepth code x y := by
  cases ends with
  | stay stays => exact .stay (before.trans stays)
  | unwind stays unwinds => exact .unwind (before.trans stays) unwinds
  | construct stays frames opens enters => exact .construct (before.trans stays) frames opens enters
  | call stays found enters => exact .call (before.trans stays) found enters

/-- What a step of the loop does to the frames and labels. -/
inductive Moves (maxDepth : Nat) (x y : Execution σ) : Prop
  | leave {frame : Frame} {outer : List Frame} {code : List Node} (frames : x.frames = frame :: outer)
      (runs : frame.code = .ok code) (atEnd : code.length ≤ frame.pc)
      (left : Stack.exitLabel frame.arity x.stack = .ok () y.stack) (remain : y.frames = outer)
      (functions : y.store.func = x.store.func)
  | run {frame : Frame} {outer : List Frame} {code : List Node} {z : Execution σ}
      (frames : x.frames = frame :: outer) (runs : frame.code = .ok code) (here : frame.pc < code.length)
      (stack : z.stack = x.stack) (advanced : z.frames = frame.advance 1 :: outer)
      (store : z.store = x.store) (ends : Ends maxDepth code z y)

end Execution

namespace Exec

open Execution

variable {env : Environment σ} {x y : Execution σ} {code : List Node}

/-- What comes after a part that stays is what counts. -/
theorem ends_bind {α : Type} {m : Exec σ α} {f : α → Exec σ Unit} (stays : Respects Stays m)
    (rest : ∀ a x y, f a x = .ok () y → Ends env.maxDepth code x y) (x y : Execution σ)
    (done : (m >>= f) x = .ok () y) : Ends env.maxDepth code x y := by
  obtain ⟨a, z, first, second⟩ := run_bind_eq_ok_iff.1 done
  exact (rest a z y second).after (.of_respects stays first)

theorem stays_onWorld {α : Type} (f : EStateM Halt σ α) : Respects Stays (onWorld f) := by
  intro ⟨store, stack, frames, world⟩
  simp only [onWorld]
  split <;> exact ⟨rfl, rfl, rfl⟩

/-- A call opens a frame of the callee, or returns from a host function. -/
theorem ends_of_call {address : Nat} (called : call env address x = .ok () y) :
    Ends env.maxDepth code x y := by
  have inside := Stays.quiet (σ := σ).inside
  obtain ⟨_, _, here, first⟩ := run_bind_eq_ok_iff.1 called
  cases here
  obtain ⟨callee, z, found, second⟩ := run_bind_eq_ok_iff.1 first
  have known : z = x ∧ x.store.func address = .ok callee := by
    cases known : x.store.func address with
    | error e =>
      rw [known] at found
      cases found
    | ok f =>
      rw [known] at found
      cases found
      exact ⟨rfl, rfl⟩
  obtain ⟨rfl, known⟩ := known
  obtain ⟨args, z', popped, third⟩ := run_bind_eq_ok_iff.1 second
  have stays := Stays.of_respects (inside.onStack (Stack.local_popTypes _)) popped
  obtain ⟨type, code⟩ := callee
  cases code with
  | host handle =>
    exact .stay (stays.trans (.of_respects (inside.bind (stays_onWorld _) fun _ =>
      inside.onStack (Stack.local_pushAll _)) third))
  | wasm f owner =>
    obtain ⟨locals, enters⟩ := enters_of_enterFunction third
    exact .call stays (by rw [stays.functions]; exact known) enters

/-- An instruction ends in one of the ways.  The cases are those of the executor. -/
theorem ends_of_instruction {position : Nat} {node : Node} (at_ : code[position]? = some node)
    (done : instruction env position node x = .ok () y) : Ends env.maxDepth code x y := by
  have inside := Stays.quiet (σ := σ).inside
  have simple {m : Exec σ Unit} (stays : Respects Stays m) (x y : Execution σ) (done : m x = .ok () y) :
      Ends env.maxDepth code x y := .stay (.of_respects stays done)
  have enter {step : Step} (opens : ∃ body, ∀ name, Frame.follow name code [step] = .ok body)
      (result : Option Valtype) (x y : Execution σ)
      (entered : enterBlock env.maxDepth step result x = .ok () y) : Ends env.maxDepth code x y := by
    obtain ⟨frame, outer, frames, enters⟩ := enters_of_enterBlock entered
    exact .construct (.refl x) frames opens enters
  have call (address : Nat) (x y : Execution σ) : call env address x = .ok () y →
    Ends env.maxDepth code x y := ends_of_call
  revert done
  unfold instruction
  split
  · exact simple (inside.onType _ _ _ _) x y
  · refine inside.plain (Q := fun m => ∀ x y, m x = .ok () y → Ends env.maxDepth code x y) simple ends_bind ?_
      _ _ x y
    intro depth x y branched
    obtain ⟨target, unwinds⟩ := unwinds_of_branch branched
    exact .unwind (.refl x) unwinds
  · next label body result =>
    exact enter ⟨body, fun _ => by simp only [Frame.follow, Step.position, at_]⟩ result x y
  · next label result body =>
    exact enter ⟨body, fun _ => by simp only [Frame.follow, Step.position, at_]⟩ result x y
  · next label result consequent alternate =>
    refine ends_bind inside.popI32 (fun condition => enter ?_ result) x y
    by_cases zero : condition = 0
    · exact ⟨alternate, fun _ => by simp only [if_pos zero, Frame.follow, Step.position, at_]⟩
    · exact ⟨consequent, fun _ => by simp only [if_neg zero, Frame.follow, Step.position, at_]⟩
  · exact ends_bind inside.currentInstance (fun _ => ends_bind (inside.ofResult _) fun _ =>
      ends_bind (inside.ofResult _) fun _ => call _) x y
  · refine ends_bind inside.currentInstance (fun _ => ends_bind (inside.ofResult _) fun _ =>
      ends_bind (inside.ofResult _) fun _ => ends_bind inside.popI32 fun _ => ends_bind inside.look fun _ =>
        ends_bind (inside.ofResult _) fun _ => ends_bind (inside.ofResult _) fun _ =>
          ends_bind inside.look fun _ => ends_bind (inside.ofResult _) fun _ => ?_) x y
    split
    · exact call _
    · exact simple (inside.fail _)
  · exact simple (inside.fail _) x y

/-- A step of the loop is one of the moves. -/
theorem moves_of_step {frame : Frame} {outer : List Frame} (frames : x.frames = frame :: outer)
    (stepped : step env frame outer x = .ok () y) : Moves env.maxDepth x y := by
  cases runs : frame.code with
  | error e =>
    rw [step, runs] at stepped
    cases stepped
  | ok code =>
    cases at_ : code[frame.pc]? with
    | none =>
      rw [step_end runs at_] at stepped
      obtain ⟨s, left, rfl⟩ := onStack_eq_ok stepped
      exact .leave frames runs (List.getElem?_eq_none_iff.1 at_) left rfl rfl
    | some node =>
      simp only [step, runs, ofResult, pure_bind, at_] at stepped
      obtain ⟨_, _, set, first⟩ := run_bind_eq_ok_iff.1 stepped
      cases set
      obtain ⟨_, _, seen, done⟩ := run_bind_eq_ok_iff.1 first
      cases seen
      refine .run frames runs (List.getElem?_eq_some_iff.1 at_).1 ?_ ?_ ?_ (ends_of_instruction at_ done)
      all_goals rfl

/-- The states in which the loop stands, from the one in which it begins. -/
inductive Reaches (env : Environment σ) (x : Execution σ) : Execution σ → Prop
  | refl : Reaches env x x
  | step {y z : Execution σ} {frame : Frame} {outer : List Frame} (before : Reaches env x y)
      (frames : y.frames = frame :: outer) (stepped : step env frame outer y = .ok () z) : Reaches env x z

/-- A run goes on from every state that the loop reaches. -/
theorem run_of_reaches (reaches : Reaches env x y) :
    ∃ steps, ∀ fuel, run env (steps + fuel) x = run env fuel y := by
  induction reaches with
  | refl => exact ⟨0, fun fuel => by rw [Nat.zero_add]⟩
  | step before frames stepped ih =>
    obtain ⟨steps, runs⟩ := ih
    refine ⟨steps + 1, fun fuel => ?_⟩
    rw [Nat.add_assoc, Nat.add_comm 1 fuel, runs, run_succ fuel frames]
    exact bind_ok stepped

end Exec

end WasmEngine
