import WasmEngine.Proofs.Machine.Lifting
import WasmEngine.Proofs.Machine.StoreExtension

/-!
# What an instruction does inside its frame

An instruction that enters no frame and leaves none works above the innermost label of the operand stack, on
the locals of its function, and on the store in one of three ways (`Store.Writes`).  A kind of computations that
has these parts and is closed under sequencing (`Exec.Inside`) has every such instruction.  One of the kinds is
what relates its beginning to its end, traps and other faults included, by a relation that allows the parts
(`Exec.Quiet`).
-/

namespace WasmEngine

open Outcome

namespace Stack

/-- The entries from the innermost label down. -/
def floor (s : Stack) : List StackEntry := s.entries.dropWhile fun entry => !entry.isLabel

/-- Operands do not count towards the floor of a stack. -/
theorem floor_stacked (below : List StackEntry) (vs : List Value) :
    (stacked below vs).floor = (⟨below⟩ : Stack).floor := by
  have above : ∀ ws : List Value,
      (ws.map StackEntry.value ++ below).dropWhile (fun entry => !entry.isLabel) =
        below.dropWhile fun entry => !entry.isLabel := by
    intro ws
    induction ws with
    | nil => rfl
    | cons w ws ih => exact ih
  rw [floor, stacked, ← List.map_reverse, above, floor]

/-- A stack has values over its innermost label. -/
theorem exists_stacked (s : Stack) : ∃ vs, s = stacked s.floor vs ∧ Closed s.floor := by
  obtain ⟨entries⟩ := s
  induction entries with
  | nil => exact ⟨[], rfl, closed_nil⟩
  | cons entry entries ih =>
    cases entry with
    | label arity => exact ⟨[], rfl, closed_label _ _⟩
    | value v =>
      obtain ⟨vs, here, closed⟩ := ih
      refine ⟨vs ++ [v], ?_, closed⟩
      have same : (⟨.value v :: entries⟩ : Stack).floor = (⟨entries⟩ : Stack).floor := rfl
      have entries_eq : entries = (stacked (⟨entries⟩ : Stack).floor vs).entries :=
        congrArg Stack.entries here
      rw [same, stacked, List.map_append, List.reverse_append]
      exact congrArg (fun rest => (⟨.value v :: rest⟩ : Stack)) entries_eq

/-- What works on the operands alone leaves the labels. -/
theorem Local.respects {α : Type} {f : StackM α} (isLocal : Local f) :
    Respects (fun s s' : Stack => s'.floor = s.floor) f := by
  intro s
  obtain ⟨vs, here, closed⟩ := exists_stacked s
  obtain ⟨r, runs⟩ := isLocal vs
  rw [here, runs _ closed, final_onState, floor_stacked, floor_stacked]

end Stack

/-- A frame without its locals. -/
def Frame.outline (frame : Frame) : Frame := frame.withLocals []

namespace Exec

variable {σ α β : Type}

/-- A kind of computations that has what can be done inside a frame. -/
structure Inside (P : ∀ {α : Type}, Exec σ α → Prop) : Prop where
  pure {α : Type} (a : α) : P (pure a)
  fail {α : Type} (e : Fault) : P (fail e : Exec σ α)
  bind {α β : Type} {m : Exec σ α} {f : α → Exec σ β} : P m → (∀ a, P (f a)) → P (m >>= f)
  look : P (MonadState.get : Exec σ (Execution σ))
  onStack {α : Type} {f : StackM α} (isLocal : Stack.Local f) : P (onStack f)
  /-- An operation on the store writes to it in one of the ways, or leaves it as it is where it fails. -/
  onStore {α : Type} {f : StoreM α} (ok : ∀ {s s' : Store} {a : α}, f s = .ok a s' → s.Writes s')
    (error : ∀ {s s' : Store} {e : Fault}, f s = .error e s' → s' = s) : P (onStore f)
  setLocals (locals : List Value) : P (setLocals locals)

namespace Inside

variable {P : ∀ {α : Type}, Exec σ α → Prop} (inside : Inside P)
include inside

theorem ofResult (r : Except Fault α) : P (ofResult r : Exec σ α) := by
  cases r with
  | ok a => exact inside.pure a
  | error e => exact inside.fail e

theorem top : P (top : Exec σ Frame) := by
  refine inside.bind inside.look fun x => ?_
  cases x.frames with
  | nil => exact inside.fail _
  | cons frame _ => exact inside.pure frame

theorem functionFrame : P (functionFrame : Exec σ (Frame × Nat)) := by
  refine inside.bind inside.look fun x => inside.bind inside.top fun frame => ?_
  dsimp only
  split
  · exact inside.pure _
  · exact inside.fail _

theorem activation : P (activation : Exec σ (List Value × Nat)) := by
  refine inside.bind inside.functionFrame fun found => ?_
  split
  · exact inside.pure _
  · exact inside.fail _

theorem currentInstance : P (currentInstance : Exec σ ModuleInstance) :=
  inside.bind inside.activation fun _ => inside.bind inside.look fun _ => inside.ofResult _

theorem indexArg (name : String) (args : List Node) (position : Nat) :
    P (indexArg name args position : Exec σ Nat) := by
  unfold Exec.indexArg
  split
  · exact inside.pure _
  · exact inside.fail _
  · exact inside.fail _

/-! ## Instructions -/

theorem popI32 : P (Exec.onStack Stack.popI32 : Exec σ (BitVec 32)) := inside.onStack Stack.local_popI32

theorem push (v : Value) : P (Exec.onStack (Stack.push v) : Exec σ Unit) :=
  inside.onStack (Stack.local_push v)

theorem load (t : Valtype) (id : String) (memArg : Option MemArg) :
    P (load t id memArg : Exec σ Unit) :=
  inside.bind inside.popI32 fun _ => inside.bind inside.currentInstance fun _ =>
    inside.bind (inside.ofResult _) fun _ => inside.bind inside.look fun _ =>
      inside.bind (inside.ofResult _) fun _ => inside.bind (inside.ofResult _) fun _ => inside.push _

theorem store (t : Valtype) (id : String) (memArg : Option MemArg) :
    P (Exec.store t id memArg : Exec σ Unit) := by
  refine inside.bind (inside.onStack (Stack.local_popTyped t)) fun _ => inside.bind inside.popI32 fun _ =>
    inside.bind inside.currentInstance fun _ => inside.bind (inside.ofResult _) fun _ =>
      inside.bind inside.look fun _ => inside.bind (inside.ofResult _) fun _ => ?_
  split
  · exact inside.onStore .write Store.writeMemory_error
  · exact inside.fail _

theorem onType (t : Valtype) (id : String) (args : List Node) (memArg : Option MemArg) :
    P (onType t id args memArg : Exec σ Unit) := by
  unfold Exec.onType
  split_ifs
  · split
    · exact inside.bind (inside.ofResult _) fun _ => inside.push _
    · exact inside.fail _
  · exact inside.load t id memArg
  · exact inside.store t id memArg
  · exact inside.onStack (Stack.local_numeric t id)

/-- The end of an assignment to a local. -/
theorem assignLocal (i : Nat) (v : Value) : P (do
    let locals := (← Exec.activation).1
    if i < locals.length then Exec.setLocals (locals.set i v) else Exec.fail (.unknownLocal i) :
      Exec σ Unit) := by
  refine inside.bind inside.activation fun _ => ?_
  dsimp only
  split
  · exact inside.setLocals _
  · exact inside.fail _

/-- An instruction that never jumps is of the kind.  The cases are the instructions in the order of the
executor. -/
theorem staying {id : String} (stays : id ∉ Structured.leaving) (args : List Node) :
    P (plain id args : Exec σ Unit) := by
  have pop := inside.onStack Stack.local_pop
  unfold Exec.plain
  split
  · exact inside.pure ()
  · exact inside.pure ()
  · exact inside.fail _
  · exact inside.bind pop fun _ => inside.pure ()
  · exact inside.bind inside.popI32 fun _ => inside.bind pop fun _ => inside.bind pop fun _ => inside.push _
  · refine inside.bind (inside.indexArg _ _ _) fun _ => inside.bind inside.activation fun _ => ?_
    split
    · exact inside.push _
    · exact inside.fail _
  · exact inside.bind (inside.indexArg _ _ _) fun _ => inside.bind pop fun _ => inside.assignLocal _ _
  · exact inside.bind (inside.indexArg _ _ _) fun _ => inside.bind pop fun _ =>
      inside.bind (inside.push _) fun _ => inside.assignLocal _ _
  · exact inside.bind inside.currentInstance fun _ => inside.bind (inside.indexArg _ _ _) fun _ =>
      inside.bind (inside.ofResult _) fun _ => inside.bind inside.look fun _ =>
        inside.bind (inside.ofResult _) fun _ => inside.push _
  · exact inside.bind inside.currentInstance fun _ => inside.bind (inside.indexArg _ _ _) fun _ =>
      inside.bind (inside.ofResult _) fun _ => inside.bind pop fun _ =>
        inside.onStore .assign Store.assign_error
  · exact absurd stays (by decide)
  · exact absurd stays (by decide)
  · exact absurd stays (by decide)
  · exact absurd stays (by decide)
  · exact inside.bind inside.currentInstance fun _ => inside.bind (inside.ofResult _) fun _ =>
      inside.bind inside.look fun _ => inside.bind (inside.ofResult _) fun _ => inside.push _
  · exact inside.bind inside.currentInstance fun _ => inside.bind (inside.ofResult _) fun _ =>
      inside.bind inside.popI32 fun _ => inside.bind (inside.onStore .grow Store.growMemory_error) fun _ =>
        inside.push _
  · exact inside.fail _

section

/-! The instructions that do more than this are a part of the kind followed by a branch or an entry.  What `Q`
says of these it says of the instruction. -/

variable {Q : Exec σ Unit → Prop} (simple : ∀ {m : Exec σ Unit}, P m → Q m)
  (after : ∀ {α : Type} {m : Exec σ α} {f : α → Exec σ Unit}, P m → (∀ a, Q (f a)) → Q (m >>= f))
include simple after

theorem plain (branch : ∀ depth, Q (branch depth)) (id : String) (args : List Node) : Q (plain id args) := by
  by_cases stays : id ∈ Structured.leaving
  · simp only [Structured.leaving, List.mem_cons, List.not_mem_nil, or_false] at stays
    obtain rfl | rfl | rfl | rfl := stays
    · exact after (inside.indexArg _ _ _) fun _ => branch _
    · refine after inside.popI32 fun _ => ?_
      split
      · exact simple (inside.pure ())
      · exact after (inside.indexArg _ _ _) fun _ => branch _
    · refine after inside.popI32 fun _ => ?_
      dsimp only
      split
      · exact after (inside.fail _) fun _ => after (inside.indexArg _ _ _) fun _ => branch _
      · exact after (inside.indexArg _ _ _) fun _ => branch _
    · exact after inside.top fun _ => after inside.look fun _ => branch _
  · exact simple (inside.staying stays args)

/-- A call of the embedding is of the kind, and one of a function of the store enters it. -/
theorem call {env : Environment σ} (host : ∀ handle args, P (onWorld (env.call handle args)))
    (enter : ∀ f owner type args, Q (enterFunction env.maxDepth f owner type args)) (address : Nat) :
    Q (call env address) := by
  refine after inside.look fun _ => after (inside.ofResult _) fun callee =>
    after (inside.onStack (Stack.local_popTypes _)) fun args => ?_
  split
  · exact simple (inside.bind (host _ _) fun _ => inside.onStack (Stack.local_pushAll _))
  · exact enter _ _ _ _

/-- The cases are the instructions in the order of the executor. -/
theorem instruction {env : Environment σ} (host : ∀ handle args, P (onWorld (env.call handle args)))
    (enterBlock : ∀ step result, Q (enterBlock env.maxDepth step result))
    (enterFunction : ∀ f owner type args, Q (enterFunction env.maxDepth f owner type args))
    (position : Nat) (node : Node)
    (plain : ∀ id args memArg, node = .instr id none args memArg → Q (Exec.plain id args)) :
    Q (instruction env position node) := by
  have call := inside.call simple after host enterFunction
  unfold Exec.instruction
  split
  · exact simple (inside.onType _ _ _ _)
  · exact plain _ _ _ rfl
  · exact enterBlock _ _
  · exact enterBlock _ _
  · exact after inside.popI32 fun _ => enterBlock _ _
  · exact after inside.currentInstance fun _ => after (inside.ofResult _) fun _ =>
      after (inside.ofResult _) fun _ => call _
  · refine after inside.currentInstance fun _ => after (inside.ofResult _) fun _ =>
      after (inside.ofResult _) fun _ => after inside.popI32 fun _ => after inside.look fun _ =>
        after (inside.ofResult _) fun _ => after (inside.ofResult _) fun _ =>
          after inside.look fun _ => after (inside.ofResult _) fun _ => ?_
    split
    · exact call _
    · exact simple (inside.fail _)
  · exact simple (inside.fail _)

end

end Inside

/-! ## Relations that allow what is done inside a frame -/

/-- A relation between executions allows what can be done inside a frame. -/
structure Quiet (R : Execution σ → Execution σ → Prop) : Prop where
  refl (x : Execution σ) : R x x
  trans {x y z : Execution σ} : R x y → R y z → R x z
  stack (x : Execution σ) {stack : Stack} (level : stack.floor = x.stack.floor) : R x { x with stack }
  locals (x : Execution σ) {frames : List Frame}
    (same : frames.map Frame.outline = x.frames.map Frame.outline) : R x { x with frames }
  store (x : Execution σ) {s : Store} (writes : x.store.Writes s) : R x { x with store := s }

/-- The innermost frame is there, or the step fails without an effect. -/
theorem top_cases (x : Execution σ) :
    (top x = .error (.fault .stackUnderflow) x ∧ x.frames = []) ∨
      ∃ frame outer, top x = .ok frame x ∧ x.frames = frame :: outer := by
  obtain ⟨store, stack, frames, world⟩ := x
  cases frames with
  | nil => exact .inl ⟨rfl, rfl⟩
  | cons frame outer => exact .inr ⟨frame, outer, rfl, rfl⟩

/-- The frame of the function is looked up, and no more. -/
theorem functionFrame_cases (x : Execution σ) : functionFrame x = .error (.fault .stackUnderflow) x ∨
    ∃ frame inside, functionFrame x = .ok (frame, inside) x ∧ x.frames[inside]? = some frame := by
  obtain ⟨empty, -⟩ | ⟨innermost, _, here, -⟩ := top_cases x
  · exact .inl ((bind_ok rfl).trans (bind_error empty))
  · have found : functionFrame x = _ := (bind_ok rfl).trans (bind_ok here)
    rw [found]
    cases at_ : x.frames[x.frames.length - 1 - innermost.function]? with
    | none => exact .inl rfl
    | some frame => exact .inr ⟨frame, _, rfl, at_⟩

theorem outline_withKind {frame : Frame} {locals others : List Value} {owner : Nat}
    (kind : frame.kind = .function locals owner) :
    Frame.outline { frame with kind := .function others owner } = frame.outline := by
  obtain ⟨func, path, pc, _, arity, function⟩ := frame
  cases kind
  rfl

/-- The frame whose locals are replaced is the one of a function, so that nothing else of it changes. -/
theorem setLocals_cases (locals : List Value) (x : Execution σ) :
    setLocals locals x = .error (.fault .stackUnderflow) x ∨
      ∃ frames, frames.map Frame.outline = x.frames.map Frame.outline ∧
        setLocals locals x = .ok () { x with frames } := by
  obtain missing | ⟨frame, inside, found, at_⟩ := functionFrame_cases x
  · exact .inl (bind_error missing)
  · have active : activation x = _ := bind_ok found
    dsimp only at active
    rw [setLocals, bind_ok found]
    dsimp only
    cases kind : frame.kind with
    | function others owner =>
      rw [kind] at active
      rw [bind_ok active]
      refine .inr ⟨_, ?_, rfl⟩
      rw [List.map_set, outline_withKind kind]
      refine List.ext_getElem? fun n => ?_
      rw [List.getElem?_set]
      split_ifs with here bound
      · subst here
        rw [List.getElem?_map, at_]
        rfl
      · subst here
        exact (List.getElem?_eq_none (Nat.le_of_not_lt bound)).symm
      · rfl
    | block =>
      rw [kind] at active
      exact .inl (bind_error active)
    | loop =>
      rw [kind] at active
      exact .inl (bind_error active)

namespace Quiet

variable {R : Execution σ → Execution σ → Prop} (quiet : Quiet R)
include quiet

/-- Operations that stay above the innermost label respect the effect on frames. -/
theorem onStack {f : StackM α} (isLocal : Stack.Local f) : Respects R (onStack f : Exec σ α) := by
  intro ⟨store, stack, frames, world⟩
  have level := isLocal.respects stack
  simp only [Exec.onStack]
  cases now : f stack <;>
  · rw [now] at level
    exact quiet.stack ⟨store, stack, frames, world⟩ level

/-- A step of the store alone respects the effect on frames, if what it does is a write. -/
theorem onStore {f : StoreM α} (ok : ∀ {s s' : Store} {a : α}, f s = .ok a s' → s.Writes s')
    (error : ∀ {s s' : Store} {e : Fault}, f s = .error e s' → s' = s) :
    Respects R (onStore f : Exec σ α) := by
  intro ⟨store, stack, frames, world⟩
  simp only [Exec.onStore]
  split
  · next done => exact quiet.store ⟨store, stack, frames, world⟩ (ok done)
  · next done =>
    cases error done
    exact quiet.refl _

/-- Setting locals leaves the stack and the outline of every frame as they were. -/
theorem setLocals (locals : List Value) : Respects R (setLocals locals : Exec σ Unit) := by
  intro x
  obtain missing | ⟨frames, same, done⟩ := setLocals_cases locals x
  · rw [missing]
    exact quiet.refl x
  · rw [done]
    exact quiet.locals x same

/-- Such a relation makes a kind of computations. -/
theorem inside : Inside fun m => Respects R m where
  pure := respects_pure quiet.refl
  fail _ := respects_throw quiet.refl _
  bind := Respects.bind quiet.trans
  look x := quiet.refl x
  onStack := quiet.onStack
  onStore := quiet.onStore
  setLocals := quiet.setLocals

end Quiet

end Exec

end WasmEngine
