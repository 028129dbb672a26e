import WasmEngine.Proofs.Machine.Invocation
import WasmEngine.Proofs.Machine.Renaming
import WasmEngine.Proofs.Machine.Sequences

/-!
# Runs at other addresses

Two runs of code that does the same, on stores that hold the same at other addresses, go step by step together:
they see the same values and the same world, and they end with the same results or the same fault
(`mirrors_invoke`).
-/

namespace WasmEngine

open Node Outcome

/-! ## States -/

/-- Frames that stand at the same place of code that does the same. -/
structure Frame.Alike (frame frame' : Frame) : Prop where
  pc : frame'.pc = frame.pc
  kind : frame'.kind = frame.kind
  arity : frame'.arity = frame.arity
  function : frame'.function = frame.function
  code : ∃ code code', frame.code = .ok code ∧ frame'.code = .ok code' ∧ AlikeIn code code'

/-- States of a run that differ at most in the addresses of the store and the names in the code. -/
structure Execution.Renamed {σ : Type} (ρ : Renaming) (x x' : Execution σ) : Prop where
  store : x.store.Renamed ρ x'.store
  stack : x'.stack = x.stack
  frames : List.Forall₂ Frame.Alike x.frames x'.frames
  world : x'.world = x.world

namespace Exec

variable {σ α β γ δ : Type} {ρ : Renaming}

/-- Parts of a run that go along with each other. -/
abbrev Follows (ρ : Renaming) (V : α → β → Prop) (m : Exec σ α) (m' : Exec σ β) : Prop :=
  Mirrors (Execution.Renamed ρ) V m m'

/-- Steps in sequence follow each other when their parts do. -/
theorem Follows.then {W : γ → δ → Prop} {m m' : Exec σ α} {f : α → Exec σ γ} {f' : α → Exec σ δ}
    (first : Follows ρ Eq m m') (rest : ∀ a, Follows ρ W (f a) (f' a)) :
    Follows ρ W (m >>= f) (m' >>= f') :=
  first.bind fun a _ same => same ▸ rest a

theorem follows_fail {V : α → β → Prop} (e : Fault) : Follows ρ V (fail e : Exec σ α) (fail e : Exec σ β) :=
  mirrors_throw _

theorem follows_ofResult {V : α → β → Prop} {r : Except Fault α} {r' : Except Fault β} (found : Found V r r') :
    Follows ρ V (ofResult r : Exec σ α) (ofResult r') := by
  cases found with
  | ok value => exact mirrors_pure value
  | error e => exact follows_fail e

theorem follows_onStack (f : StackM α) : Follows ρ Eq (onStack f : Exec σ α) (onStack f) := by
  rintro ⟨store, _, frames, _⟩ ⟨store', stack, frames', world⟩ ⟨stores, rfl, same, rfl⟩
  simp only [onStack]
  cases f stack with
  | ok a stack => exact .ok rfl ⟨stores, rfl, same, rfl⟩
  | error e stack => exact .error ⟨stores, rfl, same, rfl⟩

theorem follows_onStore {V : α → β → Prop} {f : StoreM α} {f' : StoreM β}
    (same : Mirrors (Store.Renamed ρ) V f f') : Follows ρ V (onStore f : Exec σ α) (onStore f') := by
  rintro ⟨store, _, frames, _⟩ ⟨store', stack, frames', world⟩ ⟨stores, rfl, alike, rfl⟩
  have ends := same store store' stores
  simp only [onStore]
  generalize f store = r at ends
  generalize f' store' = r' at ends
  cases ends with
  | ok value state => exact .ok value ⟨state, rfl, alike, rfl⟩
  | error state => exact .error ⟨state, rfl, alike, rfl⟩

theorem follows_onWorld (f : EStateM Halt σ α) : Follows ρ Eq (onWorld f : Exec σ α) (onWorld f) := by
  rintro ⟨store, _, frames, _⟩ ⟨store', stack, frames', world⟩ ⟨stores, rfl, same, rfl⟩
  simp only [onWorld]
  cases f world with
  | ok a world => exact .ok rfl ⟨stores, rfl, same, rfl⟩
  | error e world => exact .error ⟨stores, rfl, same, rfl⟩

theorem follows_setFrames {frames frames' : List Frame} (alike : List.Forall₂ Frame.Alike frames frames') :
    Follows ρ Eq (setFrames frames : Exec σ Unit) (setFrames frames') :=
  fun _ _ renamed => .ok rfl ⟨renamed.store, renamed.stack, alike, renamed.world⟩

/-! ## Frames -/

theorem follows_top : Follows ρ Frame.Alike (top : Exec σ Frame) top := by
  refine mirrors_look fun x x' renamed => ?_
  have frames := renamed.frames
  generalize x.frames = fs at frames
  generalize x'.frames = fs' at frames
  cases frames with
  | nil => exact follows_fail _
  | cons first _ => exact mirrors_pure first

theorem follows_functionFrame : Follows ρ (fun a b => a.1.Alike b.1 ∧ a.2 = b.2)
    (functionFrame : Exec σ (Frame × Nat)) functionFrame := by
  refine mirrors_look fun x x' renamed => follows_top.bind fun frame frame' alike => ?_
  rw [← renamed.frames.length_eq, alike.function]
  generalize x.frames.length - 1 - frame.function = inside
  have at_ := rel_getElem? renamed.frames inside
  dsimp only
  generalize x.frames[inside]? = a at at_
  generalize x'.frames[inside]? = b at at_
  cases at_ with
  | none => exact follows_fail _
  | some here => exact mirrors_pure ⟨here, rfl⟩

theorem follows_activation : Follows ρ Eq (activation : Exec σ (List Value × Nat)) activation := by
  refine follows_functionFrame.bind fun found found' alike => ?_
  rw [alike.1.kind]
  cases found.1.kind with
  | function locals owner => exact mirrors_pure rfl
  | block => exact follows_fail _
  | loop => exact follows_fail _

theorem follows_currentInstance :
    Follows ρ (ModuleInstance.Renamed ρ) (currentInstance : Exec σ ModuleInstance) currentInstance :=
  follows_activation.then fun a =>
    mirrors_look fun _ _ renamed => follows_ofResult (renamed.store.instances a.2)

theorem follows_setLocals (locals : List Value) :
    Follows ρ Eq (setLocals locals : Exec σ Unit) (setLocals locals) := by
  refine follows_functionFrame.bind fun found found' alike => follows_activation.then fun a => ?_
  refine mirrors_look fun x x' renamed => follows_setFrames ?_
  obtain ⟨here, place⟩ := alike
  rw [place]
  exact forall₂_set renamed.frames _ ⟨here.pc, rfl, here.arity, here.function, here.code⟩

theorem follows_pushFrame (maxDepth : Nat) {frame frame' : Frame} (alike : frame.Alike frame') :
    Follows ρ Eq (pushFrame maxDepth frame : Exec σ Unit) (pushFrame maxDepth frame') := by
  intro x x' renamed
  rw [Structured.pushFrame_eq, Structured.pushFrame_eq, ← renamed.frames.length_eq]
  split_ifs
  · exact .error renamed
  · exact .ok rfl ⟨renamed.store, renamed.stack, .cons alike renamed.frames, renamed.world⟩

theorem follows_enterFunction (maxDepth : Nat) {f f' : Func} (owner : Nat) (type : FuncType)
    (args : List Value) (locals : f'.locals.map Param.valtype = f.locals.map Param.valtype)
    (body : AlikeIn f.body f'.body) : Follows ρ Eq (enterFunction maxDepth f owner type args : Exec σ Unit)
      (enterFunction maxDepth f' owner type args) := by
  have defaults (g : Func) : g.locals.map (fun l => Value.default l.valtype) =
      (g.locals.map Param.valtype).map Value.default := by rw [List.map_map]; rfl
  refine mirrors_look fun x x' renamed => (follows_onStack _).then fun _ => follows_pushFrame _ ?_
  rw [defaults f', locals, ← defaults f, ← renamed.frames.length_eq]
  exact ⟨rfl, rfl, rfl, rfl, f.body, f'.body, rfl, rfl, body⟩

theorem isLoop_alike {frame frame' : Frame} (alike : frame.Alike frame') : frame'.isLoop = frame.isLoop := by
  rw [Frame.isLoop, Frame.isLoop, alike.kind]

theorem follows_branch (depth : Nat) : Follows ρ Eq (branch depth : Exec σ Unit) (branch depth) := by
  refine mirrors_look fun x x' renamed => ?_
  dsimp only
  have first := rel_getElem? renamed.frames 0
  have at_ := rel_getElem? renamed.frames depth
  have rest := List.forall₂_drop (depth + 1) renamed.frames
  rw [← List.head?_eq_getElem?, ← List.head?_eq_getElem?] at first
  rw [← renamed.frames.length_eq]
  generalize x.frames.head? = a at first ⊢
  generalize x'.frames.head? = a' at first ⊢
  generalize x.frames[depth]? = b at at_ ⊢
  generalize x'.frames[depth]? = b' at at_ ⊢
  cases first with
  | none => exact follows_fail _
  | @some frame frame' alike =>
    cases at_ with
    | none => exact follows_fail _
    | @some target target' same =>
      dsimp only
      rw [alike.function, isLoop_alike same]
      split_ifs
      · exact (follows_onStack _).then fun _ =>
          follows_setFrames (.cons ⟨rfl, same.kind, same.arity, same.function, same.code⟩ rest)
      · exact (follows_onStack _).then fun _ => follows_setFrames rest
      · exact follows_fail _

/-! ## Spellings -/

/-- An index is read the same off arguments that are respelled. -/
theorem indexArg_respelledIn (name : String) (args : List Node) (position : Nat) :
    (indexArg name (respelledIn args) position : Exec σ Nat) = indexArg name args position := by
  unfold indexArg
  rw [getElem?_respelledIn]
  cases args[position]? with
  | none => rfl
  | some node => cases node <;> rfl

/-- Instructions of a type do the same with arguments that are respelled. -/
theorem onType_respelledIn (t : Valtype) (id : String) (args : List Node) (memArg : Option MemArg) :
    (onType t id (respelledIn args) memArg : Exec σ Unit) = onType t id args memArg := by
  unfold onType
  rw [head?_respelledIn]
  cases args.head? with
  | none => rfl
  | some literal => simp only [Option.map_some, Value.ofLiteral_respelled]

/-- Plain instructions do the same with arguments that are respelled. -/
theorem plain_respelledIn (id : String) (args : List Node) :
    (plain id (respelledIn args) : Exec σ Unit) = plain id args := by
  unfold plain
  simp only [indexArg_respelledIn, isEmpty_respelledIn, length_respelledIn]

/-! ## Instructions -/

section

variable (env : Environment σ)

theorem follows_call {a a' : Nat} (related : ρ .func a a') : Follows ρ Eq (call env a) (call env a') := by
  refine mirrors_look fun x x' renamed => ?_
  obtain ⟨f, f', here, there, alike⟩ := renamed.store.func related
  rw [here, there]
  refine (follows_ofResult (.ok alike)).bind fun g g' same => ?_
  rw [same.type]
  refine (follows_onStack _).then fun args => ?_
  obtain ⟨type, code⟩ := g
  obtain ⟨type', code'⟩ := g'
  obtain ⟨rfl, same⟩ := same
  cases same with
  | host handle => exact (follows_onWorld _).then fun _ => follows_onStack _
  | wasm owner locals body => exact follows_enterFunction _ _ _ _ locals body

end

theorem follows_load (t : Valtype) (id : String) (memArg : Option MemArg) :
    Follows ρ Eq (load t id memArg : Exec σ Unit) (load t id memArg) := by
  refine (follows_onStack _).then fun base => follows_currentInstance.bind fun i i' renamed =>
    (follows_ofResult renamed.memory).bind fun a a' related => mirrors_look fun x x' state => ?_
  obtain ⟨m, here, there⟩ := state.store.memory related
  rw [here, there]
  exact (follows_ofResult (.ok rfl)).then fun m => (follows_ofResult (found_rfl _)).then fun v =>
    follows_onStack _

theorem follows_store (t : Valtype) (id : String) (memArg : Option MemArg) :
    Follows ρ Eq (store t id memArg : Exec σ Unit) (store t id memArg) := by
  refine (follows_onStack _).then fun v => (follows_onStack _).then fun base =>
    follows_currentInstance.bind fun i i' renamed => (follows_ofResult renamed.memory).bind fun a a' related =>
      mirrors_look fun x x' state => ?_
  obtain ⟨m, here, there⟩ := state.store.memory related
  rw [here, there]
  refine (follows_ofResult (.ok rfl)).then fun m => ?_
  split
  · exact follows_onStore (Store.mirrors_writeMemory related _ _)
  · exact follows_fail _

theorem follows_onType (t : Valtype) (id : String) (args : List Node) (memArg : Option MemArg) :
    Follows ρ Eq (onType t id args memArg : Exec σ Unit) (onType t id args memArg) := by
  unfold onType
  split_ifs
  · split
    · exact (follows_ofResult (found_rfl _)).then fun _ => follows_onStack _
    · exact follows_fail _
  · exact follows_load t id memArg
  · exact follows_store t id memArg
  · exact follows_onStack _

theorem follows_indexArg (name : String) (args : List Node) (position : Nat) :
    Follows ρ Eq (indexArg name args position : Exec σ Nat) (indexArg name args position) := by
  unfold indexArg
  split
  · exact mirrors_pure rfl
  · exact follows_fail _
  · exact follows_fail _

/-- The end of an assignment to a local. -/
theorem follows_assignLocal (i : Nat) (v : Value) : Follows ρ Eq (do
    let locals := (← activation).1
    if i < locals.length then setLocals (locals.set i v) else fail (.unknownLocal i) : Exec σ Unit) (do
    let locals := (← activation).1
    if i < locals.length then setLocals (locals.set i v) else fail (.unknownLocal i)) := by
  refine follows_activation.then fun a => ?_
  dsimp only
  split
  · exact follows_setLocals _
  · exact follows_fail _

/-- The cases are the instructions in the order of the executor. -/
theorem follows_plain (id : String) (args : List Node) :
    Follows ρ Eq (plain id args : Exec σ Unit) (plain id args) := by
  unfold plain
  split
  · exact mirrors_pure rfl
  · exact mirrors_pure rfl
  · exact follows_fail _
  · exact (follows_onStack _).then fun _ => mirrors_pure rfl
  · exact (follows_onStack _).then fun _ => (follows_onStack _).then fun _ =>
      (follows_onStack _).then fun _ => follows_onStack _
  · refine (follows_indexArg _ _ _).then fun _ => follows_activation.then fun _ => ?_
    split
    · exact follows_onStack _
    · exact follows_fail _
  · exact (follows_indexArg _ _ _).then fun _ => (follows_onStack _).then fun _ => follows_assignLocal _ _
  · exact (follows_indexArg _ _ _).then fun _ => (follows_onStack _).then fun _ =>
      (follows_onStack _).then fun _ => follows_assignLocal _ _
  · refine follows_currentInstance.bind fun i i' renamed => (follows_indexArg _ _ _).then fun n =>
      (follows_ofResult (renamed.global n)).bind fun a a' related => mirrors_look fun x x' state => ?_
    obtain ⟨g, here, there⟩ := state.store.global related
    rw [here, there]
    exact (follows_ofResult (.ok rfl)).then fun _ => follows_onStack _
  · exact follows_currentInstance.bind fun i i' renamed => (follows_indexArg _ _ _).then fun n =>
      (follows_ofResult (renamed.global n)).bind fun a a' related => (follows_onStack _).then fun v =>
        follows_onStore (Store.mirrors_assign related v)
  · exact (follows_indexArg _ _ _).then fun _ => follows_branch _
  · refine (follows_onStack _).then fun _ => ?_
    split
    · exact mirrors_pure rfl
    · exact (follows_indexArg _ _ _).then fun _ => follows_branch _
  · refine (follows_onStack _).then fun _ => ?_
    dsimp only
    split
    · exact (follows_fail _).then fun _ => (follows_indexArg _ _ _).then fun _ => follows_branch _
    · exact (follows_indexArg _ _ _).then fun _ => follows_branch _
  · refine follows_top.bind fun frame frame' alike => mirrors_look fun x x' renamed => ?_
    rw [alike.function, renamed.frames.length_eq]
    exact follows_branch _
  · refine follows_currentInstance.bind fun i i' renamed =>
      (follows_ofResult renamed.memory).bind fun a a' related => mirrors_look fun x x' state => ?_
    obtain ⟨m, here, there⟩ := state.store.memory related
    rw [here, there]
    exact (follows_ofResult (.ok rfl)).then fun _ => follows_onStack _
  · exact follows_currentInstance.bind fun i i' renamed =>
      (follows_ofResult renamed.memory).bind fun a a' related => (follows_onStack _).then fun delta =>
        (follows_onStore (Store.mirrors_growMemory related _)).then fun _ => follows_onStack _
  · exact follows_fail _

/-! ## Constructs -/

section

variable {env : Environment σ} {x x' : Execution σ} {frame frame' : Frame} {outer outer' : List Frame}
  {code code' : List Node} {position : Nat}

/-- A construct is entered alike where the frames around it are alike and its sequence is found in both. -/
theorem alike_enterBlock (maxDepth : Nat) (renamed : x.Renamed ρ x') (frames : x.frames = frame :: outer)
    (frames' : x'.frames = frame' :: outer') (step : Step) (result : Option Valtype) {body body' : List Node}
    (inner : ∀ arity, (frame.child step arity).code = .ok body)
    (inner' : ∀ arity, (frame'.child step arity).code = .ok body') (same : AlikeIn body body') :
    Outcome.Alike (Execution.Renamed ρ) Eq (enterBlock maxDepth step result x)
      (enterBlock maxDepth step result x') := by
  have alike : frame.Alike frame' := by
    have both := renamed.frames
    rw [frames, frames'] at both
    cases both with
    | cons first _ => exact first
  have front {y : Execution σ} {f : Frame} {fs : List Frame} (here : y.frames = f :: fs) :
      (top : Exec σ Frame) y = .ok f y := by
    obtain ⟨store, stack, _, world⟩ := y
    cases here
    rfl
  have child : (frame.child step result.toList.length).Alike (frame'.child step result.toList.length) :=
    ⟨rfl, rfl, rfl, alike.function, body, body', inner _, inner' _, same⟩
  rw [enterBlock, bind_ok (front frames), bind_ok (front frames'), isLoop_alike child]
  exact ((follows_onStack _).then fun _ => follows_pushFrame _ child) x x' renamed

/-- Instructions that are alike have like outcomes in renamed states. -/
theorem alike_instruction {node node' : Node} (alike : node.Alike node') (renamed : x.Renamed ρ x')
    (frames : x.frames = frame :: outer) (frames' : x'.frames = frame' :: outer')
    (runs : frame.code = .ok code) (runs' : frame'.code = .ok code') (at_ : code[position]? = some node)
    (at' : code'[position]? = some node') :
    Outcome.Alike (Execution.Renamed ρ) Eq (instruction env position node x)
      (instruction env position node' x') := by
  cases alike with
  | instr id object args memArg =>
    cases object with
    | some t =>
      rw [instruction, instruction, onType_respelledIn]
      exact follows_onType t id args memArg x x' renamed
    | none =>
      rw [instruction, instruction, plain_respelledIn]
      exact follows_plain id args x x' renamed
  | block inside =>
    exact alike_enterBlock _ renamed frames frames' _ _
      (fun _ => (Frame.follow_append runs).trans (by simp [Frame.follow, Step.position, at_]))
      (fun _ => (Frame.follow_append runs').trans (by simp [Frame.follow, Step.position, at'])) inside
  | loop inside =>
    exact alike_enterBlock _ renamed frames frames' _ _
      (fun _ => (Frame.follow_append runs).trans (by simp [Frame.follow, Step.position, at_]))
      (fun _ => (Frame.follow_append runs').trans (by simp [Frame.follow, Step.position, at'])) inside
  | ifElse whenTrue whenFalse =>
    rw [instruction, instruction]
    cases taken : Stack.popI32 x.stack with
    | ok condition stack =>
      have popped : Execution.Renamed ρ { x with stack := stack } { x' with stack := stack } :=
        ⟨renamed.store, rfl, renamed.frames, renamed.world⟩
      rw [bind_ok (Structured.onStack_ok taken),
        bind_ok (Structured.onStack_ok (renamed.stack.symm ▸ taken))]
      by_cases zero : condition = 0
      · simp only [if_pos zero]
        exact alike_enterBlock _ popped frames frames' _ _
          (fun _ => (Frame.follow_append runs).trans (by simp [Frame.follow, Step.position, at_]))
          (fun _ => (Frame.follow_append runs').trans (by simp [Frame.follow, Step.position, at'])) whenFalse
      · simp only [if_neg zero]
        exact alike_enterBlock _ popped frames frames' _ _
          (fun _ => (Frame.follow_append runs).trans (by simp [Frame.follow, Step.position, at_]))
          (fun _ => (Frame.follow_append runs').trans (by simp [Frame.follow, Step.position, at'])) whenTrue
    | error e stack =>
      rw [bind_error (Structured.onStack_error taken),
        bind_error (Structured.onStack_error (renamed.stack.symm ▸ taken))]
      exact .error ⟨renamed.store, rfl, renamed.frames, renamed.world⟩
  | call i =>
    rw [instruction, instruction, i.resolved_respelled]
    exact (follows_currentInstance.bind fun m m' same => (follows_ofResult (found_rfl _)).then fun n =>
      (follows_ofResult (same.func n)).bind fun a a' related => follows_call env related) x x' renamed
  | @callIndirect s s' type =>
    refine (follows_currentInstance.bind fun m m' same => ?_) x x' renamed
    rw [ModuleInstance.funcType, ModuleInstance.funcType, type]
    refine (follows_ofResult (.ok rfl)).then fun expected => (follows_ofResult same.table).bind fun t t' tables =>
      (follows_onStack _).then fun element => mirrors_look fun y y' state => ?_
    obtain ⟨u, u', here, there, -, slots⟩ := state.store.table tables
    rw [here, there]
    refine (follows_ofResult (V := fun v v' => List.Forall₂ (Option.Rel (ρ .func)) v.slots v'.slots)
      (.ok slots)).bind fun v v' slots => ?_
    refine (follows_ofResult (Table.get_renamed slots _)).bind fun a a' related =>
      mirrors_look fun z z' state => ?_
    obtain ⟨f, f', here, there, alike⟩ := state.store.func related
    rw [here, there]
    refine (follows_ofResult (.ok alike)).bind fun f f' alike => ?_
    rw [alike.type]
    split_ifs
    · exact follows_call env related
    · exact follows_fail _

end

/-! ## Runs -/

section

variable (env : Environment σ)

/-- A step has like outcomes in renamed states. -/
theorem alike_step {x x' : Execution σ} {frame frame' : Frame} {outer outer' : List Frame}
    (renamed : x.Renamed ρ x') (frames : x.frames = frame :: outer) (frames' : x'.frames = frame' :: outer') :
    Outcome.Alike (Execution.Renamed ρ) Eq (step env frame outer x) (step env frame' outer' x') := by
  have both := renamed.frames
  rw [frames, frames'] at both
  obtain _ | ⟨alike, rest⟩ := both
  obtain ⟨code, code', runs, runs', same⟩ := alike.code
  have node := rel_getElem? (alikeIn_iff.1 same) frame.pc
  rw [step, step, runs, runs', alike.pc]
  simp only [ofResult, pure_bind]
  cases here : code[frame.pc]? with
  | none =>
    rw [here] at node
    generalize code'[frame.pc]? = n' at node
    cases node
    rw [alike.arity]
    exact ((follows_setFrames rest).then fun _ => follows_onStack _) x x' renamed
  | some n =>
    cases there : code'[frame.pc]? with
    | none =>
      rw [here, there] at node
      cases node
    | some n' =>
      rw [here, there] at node
      have node : n.Alike n' := by
        cases node with
        | some same => exact same
      have moved : List.Forall₂ Frame.Alike ({ frame with pc := frame.pc + 1 } :: outer)
          ({ frame' with pc := frame.pc + 1 } :: outer') :=
        .cons ⟨rfl, alike.kind, alike.arity, alike.function, alike.code⟩ rest
      have world : env.observe (outer'.length + 1) (n'.instructionName?.getD "") x'.world =
          env.observe (outer.length + 1) (n.instructionName?.getD "") x.world := by
        rw [rest.length_eq, node.instructionName?, renamed.world]
      have state : Execution.Renamed ρ
          ⟨x.store, x.stack, { frame with pc := frame.pc + 1 } :: outer,
            env.observe (outer.length + 1) (n.instructionName?.getD "") x.world⟩
          ⟨x'.store, x'.stack, { frame' with pc := frame.pc + 1 } :: outer',
            env.observe (outer'.length + 1) (n'.instructionName?.getD "") x'.world⟩ :=
        ⟨renamed.store, renamed.stack, moved, world⟩
      exact alike_instruction node state rfl rfl runs runs' here there

theorem follows_run (fuel : Nat) : Follows ρ Eq (run env fuel) (run env fuel) := by
  induction fuel with
  | zero =>
    intro x x' renamed
    have both := renamed.frames
    cases frames : x.frames with
    | nil =>
      rw [frames] at both
      rw [Structured.run_nil 0 frames, Structured.run_nil 0 (List.forall₂_nil_left_iff.1 both)]
      exact .ok rfl renamed
    | cons frame outer =>
      rw [frames] at both
      obtain ⟨frame', outer', -, -, frames'⟩ := List.forall₂_cons_left_iff.1 both
      rw [Structured.run_zero frames, Structured.run_zero frames']
      exact .error renamed
  | succ fuel ih =>
    intro x x' renamed
    have both := renamed.frames
    cases frames : x.frames with
    | nil =>
      rw [frames] at both
      rw [Structured.run_nil _ frames, Structured.run_nil _ (List.forall₂_nil_left_iff.1 both)]
      exact .ok rfl renamed
    | cons frame outer =>
      rw [frames] at both
      obtain ⟨frame', outer', -, -, frames'⟩ := List.forall₂_cons_left_iff.1 both
      rw [Structured.run_succ fuel frames, Structured.run_succ fuel frames']
      exact alike_bind (alike_step env renamed frames frames') fun _ _ _ => ih

theorem follows_runFunction (fuel : Nat) {f f' : Func} (owner : Nat) (type : FuncType) (args : List Value)
    (locals : f'.locals.map Param.valtype = f.locals.map Param.valtype) (body : AlikeIn f.body f'.body) :
    Follows ρ Eq (runFunction env fuel f owner type args) (runFunction env fuel f' owner type args) := by
  refine (follows_enterFunction _ owner type args locals body).then fun _ =>
    (follows_run env fuel).then fun _ => (follows_onStack _).then fun results =>
      mirrors_look fun x x' renamed => ?_
  rw [renamed.stack]
  dsimp only
  split
  · exact mirrors_pure rfl
  · exact follows_fail _

end

end Exec

/-! ## Calls -/

/-- Stores and worlds that differ at most in the addresses of the store. -/
def RenamedWith {σ : Type} (ρ : Renaming) (x x' : Store × σ) : Prop := x.1.Renamed ρ x'.1 ∧ x'.2 = x.2

/-- What a call ends with, without the address that is named where the number of arguments is wrong. -/
def Halt.unaddressed : Halt → Halt
  | .fault (.arityMismatch _ given expected) => .fault (.arityMismatch 0 given expected)
  | h => h

variable {σ : Type} {ρ : Renaming}

/-- Calls of functions that stand for each other end alike, but for the address in the message about the
number of arguments. -/
theorem alike_invoke (env : Environment σ) (fuel : Nat) {a a' : Nat} (related : ρ .func a a')
    (args : List Value) {x x' : Store × σ} (renamed : RenamedWith ρ x x') :
    Outcome.Alike (RenamedWith ρ) Eq (invoke env fuel a args x) (invoke env fuel a' args x') ∨
      ∃ given expected, invoke env fuel a args x = .error (.fault (.arityMismatch a given expected)) x ∧
        invoke env fuel a' args x' = .error (.fault (.arityMismatch a' given expected)) x' := by
  obtain ⟨s, _⟩ := x
  obtain ⟨s', w⟩ := x'
  obtain ⟨stores, rfl⟩ := renamed
  obtain ⟨⟨type, code⟩, ⟨type', code'⟩, here, there, ⟨rfl, alike⟩⟩ := stores.func related
  by_cases count : args.length = type'.args.length
  · refine .inl ?_
    cases alike with
    | host handle =>
      rw [Structured.invoke_host here count, Structured.invoke_host there count]
      cases env.call handle (Structured.castArgs args type') w with
      | ok results w => exact .ok rfl ⟨stores, rfl⟩
      | error e w => exact .error ⟨stores, rfl⟩
    | @wasm f f' owner locals body =>
      rw [Structured.invoke_wasm here count, Structured.invoke_wasm there count]
      have ends := Exec.follows_runFunction (ρ := ρ) env fuel owner type'
        (Structured.castArgs args type') locals body ⟨s, .empty, [], w⟩ ⟨s', .empty, [], w⟩
        ⟨stores, rfl, .nil, rfl⟩
      exact ends.onState fun y y' state => ⟨state.store, state.world⟩
  · refine .inr ⟨args.length, type'.args.length, ?_, ?_⟩
    · simp only [invoke, here, ne_eq, count, not_false_eq_true, if_true]
    · simp only [invoke, there, ne_eq, count, not_false_eq_true, if_true]

end WasmEngine

