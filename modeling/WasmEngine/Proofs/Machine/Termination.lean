import Mathlib.Algebra.Order.BigOperators.Group.List
import Mathlib.Algebra.Order.Group.Nat
import WasmEngine.Proofs.Machine.FrameStack
import WasmEngine.Proofs.Syntax.Everywhere

/-!
# Code without loops comes to an end

Nothing but a loop starts a sequence again.  So every move of a run without loops takes an instruction from one
of the frames, and what it may put on top of that frame weighs less (`weight_lt_of_moves`).  As the bound on frames
limits how often this happens, every call comes to an end, and in a number of steps that only depends on the bodies
and the bound (`invoke_ends`).
-/

namespace WasmEngine

open Outcome Structured

variable {σ α β : Type}

/-! ## What has no loop -/

/-- A node that is no loop. -/
def Node.NotLoop : Node → Prop
  | .loop .. => False
  | _ => True

/-- No body of a function of the store has a loop in it. -/
def Store.LoopFree (s : Store) : Prop :=
  ∀ a type f owner, s.func a = .ok ⟨type, .wasm f owner⟩ → Node.EveryIn Node.NotLoop f.body

/-- Code without loops in which every sequence is shorter than a bound. -/
structure Straight (bound : Nat) (code : List Node) : Prop where
  loopFree : Node.EveryIn Node.NotLoop code
  size : sizeOf code < bound

/-- Code is no longer than its size. -/
theorem length_le_sizeOf (code : List Node) : code.length ≤ sizeOf code := by
  induction code with
  | nil => exact Nat.zero_le _
  | cons node code ih =>
    simp only [List.length_cons, List.cons.sizeOf_spec]
    omega

namespace Straight

variable {bound : Nat} {code body : List Node} {step : Step}

theorem length_lt (straight : Straight bound code) : code.length < bound :=
  Nat.lt_of_le_of_lt (length_le_sizeOf code) straight.size

/-- A construct of such code has such code inside, and is no loop. -/
theorem of_follow (straight : Straight bound code) {name : String}
    (opens : Frame.follow name code [step] = .ok body) : Straight bound body ∧ ∀ p, step ≠ .loop p := by
  have inside {node : Node} {p : Nat} (at_ : code[p]? = some node) :
      Node.Every Node.NotLoop node ∧ sizeOf node < sizeOf code :=
    ⟨Node.everyIn_iff.1 straight.loopFree node (List.mem_of_getElem? at_),
      List.sizeOf_lt_of_mem (List.mem_of_getElem? at_)⟩
  have size := straight.size
  unfold Frame.follow at opens
  split at opens
  · next label inner result at_ =>
    cases opens
    obtain ⟨every, smaller⟩ := inside at_
    simp only [Node.block.sizeOf_spec] at smaller
    exact ⟨⟨every.2, by omega⟩, nofun⟩
  · next label result inner at_ =>
    cases opens
    exact absurd (inside at_).1.1 id
  · next label result consequent alternate at_ =>
    cases opens
    obtain ⟨every, smaller⟩ := inside at_
    simp only [Node.ifElse.sizeOf_spec] at smaller
    exact ⟨⟨every.2.1, by omega⟩, nofun⟩
  · next label result consequent alternate at_ =>
    cases opens
    obtain ⟨every, smaller⟩ := inside at_
    simp only [Node.ifElse.sizeOf_spec] at smaller
    exact ⟨⟨every.2.2, by omega⟩, nofun⟩
  · cases opens

end Straight

/-- The size of the body that an entry of a store runs. -/
noncomputable def StoreEntry.bodySize : Option StoreEntry → Nat
  | some (.func ⟨_, .wasm f _⟩) => sizeOf f.body
  | _ => 0

/-- There is a bound for the bodies of a store. -/
theorem Store.LoopFree.exists_bound {s : Store} (loopFree : s.LoopFree) : ∃ bound,
    ∀ a type f owner, s.func a = .ok ⟨type, .wasm f owner⟩ → Straight bound f.body := by
  refine ⟨(s.entries.toList.map StoreEntry.bodySize).sum + 1,
    fun a type f owner here => ⟨loopFree a type f owner here, ?_⟩⟩
  have found := Store.func_eq_ok.1 here
  simp only [Store.get?, Option.bind_eq_some_iff] at found
  obtain ⟨entry, at_, rfl⟩ := found
  have inside : StoreEntry.bodySize (some (.func ⟨type, .wasm f owner⟩)) ∈
      s.entries.toList.map StoreEntry.bodySize :=
    List.mem_map_of_mem (List.mem_of_getElem? (by rw [Array.getElem?_toList]; exact at_))
  exact Nat.lt_succ_of_le (List.le_sum_of_mem inside)

/-! ## The weight of frames -/

namespace Frame

/-- The number of steps that a frame takes itself before it is left, with the one that leaves it. -/
def remaining (f : Frame) : Nat :=
  match f.code with
  | .ok code => code.length - f.pc + 1
  | .error _ => 1

/-- Every frame has a step left. -/
theorem remaining_pos (f : Frame) : 0 < f.remaining := by
  unfold remaining
  split <;> omega

/-- Moving on takes one step off what remains. -/
theorem remaining_advance {f : Frame} {code : List Node} (runs : f.code = .ok code)
    (here : f.pc < code.length) : (f.advance 1).remaining + 1 = f.remaining := by
  have runs' : (f.advance 1).code = .ok code := runs
  simp only [remaining, runs, runs']
  simp only [advance]
  omega

/-- What remains of a frame is a matter of its outline. -/
theorem remaining_of_outline {f g : Frame} (same : g.outline = f.outline) : g.remaining = f.remaining := by
  rw [remaining, remaining, code_of_outline same, pc_of_outline same]

/-- A frame that runs such code takes at most `bound` steps. -/
theorem remaining_le {f : Frame} {bound : Nat} {code : List Node} (runs : f.code = .ok code)
    (straight : Straight bound code) : f.remaining ≤ bound := by
  have length := straight.length_lt
  simp only [remaining, runs]
  omega

end Frame

/-- What a step of a frame weighs that has so many free places above it: more than a frame there that takes
`bound` steps. -/
def stepWeight (bound : Nat) : Nat → Nat
  | 0 => 1
  | free + 1 => bound * stepWeight bound free + 1

/-- What frames weigh, the innermost first. -/
def weight (bound maxDepth : Nat) : List Frame → Nat
  | [] => 0
  | f :: frames => weight bound maxDepth frames + f.remaining * stepWeight bound (maxDepth - (frames.length + 1))

section

variable {bound maxDepth : Nat}

theorem stepWeight_pos (bound free : Nat) : 0 < stepWeight bound free := by
  cases free with
  | zero => exact Nat.one_pos
  | succ free => exact Nat.succ_pos _

/-- The weight of frames is a matter of their outlines. -/
theorem weight_of_outlines {frames others : List Frame}
    (same : others.map Frame.outline = frames.map Frame.outline) :
    weight bound maxDepth others = weight bound maxDepth frames := by
  induction frames generalizing others with
  | nil =>
    rw [List.map_nil, List.map_eq_nil_iff] at same
    rw [same]
  | cons f frames ih =>
    obtain ⟨g, others, rfl, first, rest⟩ := List.map_eq_cons_iff.1 same
    have length : others.length = frames.length := by simpa using congrArg List.length rest
    rw [weight, weight, ih rest, length, Frame.remaining_of_outline first]

/-- Leaving frames does not raise the weight. -/
theorem weight_drop_le (frames : List Frame) (n : Nat) :
    weight bound maxDepth (frames.drop n) ≤ weight bound maxDepth frames := by
  induction n generalizing frames with
  | zero => exact Nat.le_refl _
  | succ n ih =>
    cases frames with
    | nil => exact Nat.le_refl _
    | cons f frames => exact Nat.le_trans (ih frames) (Nat.le_add_right _ _)

/-- A frame that takes at most `bound` steps weighs less than one step of the frame below. -/
theorem weight_cons_lt {f : Frame} {frames : List Frame} (room : frames.length < maxDepth)
    (le : f.remaining ≤ bound) : weight bound maxDepth (f :: frames) <
      weight bound maxDepth frames + stepWeight bound (maxDepth - frames.length) := by
  obtain ⟨free, rest⟩ : ∃ free, maxDepth - frames.length = free + 1 := ⟨maxDepth - frames.length - 1, by omega⟩
  have above : maxDepth - (frames.length + 1) = free := by omega
  have less := Nat.mul_le_mul_right (stepWeight bound free) le
  rw [weight, above, rest, stepWeight]
  omega

end

/-! ## Moves without loops -/

/-- No frame and no function of an execution has a loop, and each sequence is short. -/
structure Execution.Straight (bound : Nat) (x : Execution σ) : Prop where
  frames : ∀ f ∈ x.frames, f.isLoop = false ∧ ∀ code, f.code = .ok code → WasmEngine.Straight bound code
  bodies : ∀ a type f owner, x.store.func a = .ok ⟨type, .wasm f owner⟩ → WasmEngine.Straight bound f.body

namespace Execution

variable {bound maxDepth : Nat} {x y z : Execution σ}

/-- Straightness is kept by steps inside a frame. -/
theorem Stays.straight (stays : Stays x y) (straight : x.Straight bound) : y.Straight bound where
  frames := by
    intro f inside
    obtain ⟨g, known, same⟩ : ∃ g ∈ x.frames, g.outline = f.outline := by
      have outlined : f.outline ∈ x.frames.map Frame.outline := by
        rw [← stays.frames]
        exact List.mem_map_of_mem inside
      exact List.mem_map.1 outlined
    obtain ⟨noLoop, codes⟩ := straight.frames g known
    refine ⟨(Frame.isLoop_of_outline same.symm).trans noLoop, fun c runs => codes c ?_⟩
    exact (Frame.code_of_outline same).trans runs
  bodies := by
    rw [stays.functions]
    exact straight.bodies

/-- Straightness is kept when a straight frame is entered that is no loop. -/
theorem Enters.straight {f : Frame} (enters : Enters maxDepth f x y) (straight : x.Straight bound)
    (noLoop : f.isLoop = false) (codes : ∀ code, f.code = .ok code → WasmEngine.Straight bound code) :
    y.Straight bound := by
  rw [enters.result]
  exact ⟨List.forall_mem_cons.2 ⟨⟨noLoop, codes⟩, straight.frames⟩, straight.bodies⟩

/-- Entering a frame over one that has moved on makes the whole lighter. -/
theorem Enters.weight_lt {f g : Frame} {outer : List Frame} (enters : Enters maxDepth f x y)
    (frames : x.frames.map Frame.outline = (g :: outer).map Frame.outline) (le : f.remaining ≤ bound) :
    weight bound maxDepth y.frames <
      weight bound maxDepth (g :: outer) + stepWeight bound (maxDepth - (outer.length + 1)) := by
  have length : x.frames.length = outer.length + 1 := by simpa using congrArg List.length frames
  have lighter := weight_cons_lt (f := f) enters.room le
  rw [weight_of_outlines frames, length] at lighter
  rw [enters.result]
  exact lighter

/-- What the end of an instruction does where there are no loops. -/
theorem Ends.straight {g : Frame} {outer : List Frame} {code : List Node} (ends : Ends maxDepth code x y)
    (frames : x.frames = g :: outer) (runs : g.code = .ok code) (straight : x.Straight bound) :
    y.Straight bound ∧ weight bound maxDepth y.frames <
      weight bound maxDepth (g :: outer) + stepWeight bound (maxDepth - (outer.length + 1)) := by
  have pos := stepWeight_pos bound (maxDepth - (outer.length + 1))
  cases ends with
  | stay stays =>
    refine ⟨stays.straight straight, ?_⟩
    rw [weight_of_outlines stays.frames, frames]
    omega
  | @unwind z depth target stays unwinds =>
    have straight' := stays.straight straight
    have noLoop := (straight'.frames target (List.mem_of_getElem? unwinds.at_)).1
    have remain := unwinds.frames
    rw [noLoop, if_neg (by decide)] at remain
    have le : weight bound maxDepth (z.frames.drop (depth + 1)) ≤ weight bound maxDepth z.frames :=
      weight_drop_le z.frames (depth + 1)
    rw [weight_of_outlines stays.frames, frames] at le
    refine ⟨⟨fun f inside => ?_, ?_⟩, ?_⟩
    · rw [remain] at inside
      exact straight'.frames f (List.mem_of_mem_drop inside)
    · rw [unwinds.functions]
      exact straight'.bodies
    · rw [remain]
      omega
  | @construct z g' outer' step arity stays frames' opens enters =>
    have straight' := stays.straight straight
    have same := stays.frames
    rw [frames, frames', List.map_cons, List.map_cons] at same
    have runs' : g'.code = .ok code :=
      (Frame.code_of_outline (List.cons.inj same).1).trans runs
    have codes := (straight'.frames g' (by rw [frames']; exact List.mem_cons_self)).2 code runs'
    obtain ⟨body, leads⟩ := opens
    obtain ⟨short, noLoop⟩ := codes.of_follow (leads g'.func.name.value)
    have inner : (g'.child step arity).code = .ok body := (Frame.follow_append runs').trans (leads _)
    refine ⟨enters.straight straight' ?_ fun c is => ?_, enters.weight_lt ?_ (Frame.remaining_le inner short)⟩
    · cases step with
      | loop p => exact absurd rfl (noLoop p)
      | _ => rfl
    · cases inner.symm.trans is
      exact short
    · rw [← frames]
      exact stays.frames
  | @call z address owner type f locals stays found enters =>
    have straight' := stays.straight straight
    have short := straight'.bodies address type f owner found
    refine ⟨enters.straight straight' rfl fun c is => ?_, enters.weight_lt ?_ (Frame.remaining_le rfl short)⟩
    · cases is
      exact short
    · rw [← frames]
      exact stays.frames

/-- Every move makes an execution without loops lighter. -/
theorem Moves.straight (moves : Moves maxDepth x y) (straight : x.Straight bound) :
    y.Straight bound ∧ weight bound maxDepth y.frames < weight bound maxDepth x.frames := by
  cases moves with
  | @leave frame outer code frames runs atEnd left remain functions =>
    have pos := Nat.mul_pos frame.remaining_pos (stepWeight_pos bound (maxDepth - (outer.length + 1)))
    refine ⟨⟨fun f inside => ?_, ?_⟩, ?_⟩
    · rw [remain] at inside
      exact straight.frames f (by rw [frames]; exact List.mem_cons_of_mem _ inside)
    · rw [functions]
      exact straight.bodies
    · rw [remain, frames, weight]
      omega
  | @run frame outer code z frames runs here stack advanced store ends =>
    have straight' : z.Straight bound := by
      refine ⟨fun f inside => ?_, by rw [store]; exact straight.bodies⟩
      rw [advanced] at inside
      have known := straight.frames
      rw [frames] at known
      obtain ⟨first, rest⟩ := List.forall_mem_cons.1 known
      obtain rfl | later := List.mem_cons.1 inside
      · exact first
      · exact rest f later
    obtain ⟨after, lighter⟩ := ends.straight advanced runs straight'
    refine ⟨after, Nat.lt_of_lt_of_eq lighter ?_⟩
    rw [frames, weight, weight, ← Frame.remaining_advance runs here, Nat.succ_mul, Nat.add_assoc]

end Execution

/-! ## Runs that are not cut -/

/-- The functions of the embedding return: they are never cut for want of fuel. -/
def Environment.Returns (env : Environment σ) : Prop :=
  ∀ handle args w w', env.call handle args w ≠ .error .outOfFuel w'

namespace Exec

/-- A computation that is never cut for want of fuel. -/
def Definite (m : Exec σ α) : Prop := ∀ x y, m x ≠ .error .outOfFuel y

/-- Definite steps in sequence are definite. -/
theorem Definite.bind {m : Exec σ α} {f : α → Exec σ β} (first : Definite m) (rest : ∀ a, Definite (f a)) :
    Definite (m >>= f) := by
  intro x y
  cases now : m x with
  | ok a z =>
    rw [bind_ok now]
    exact rest a z y
  | error e z =>
    rw [bind_error now]
    intro cut
    cases cut
    exact first x y now

theorem definite_onStack (f : StackM α) : Definite (onStack f : Exec σ α) := by
  intro ⟨store, stack, frames, world⟩ y
  simp only [onStack]
  split <;> rintro ⟨⟩

theorem definite_setFrames (frames : List Frame) : Definite (setFrames frames : Exec σ Unit) := nofun

/-- Nothing that is done inside a frame is cut. -/
theorem definite_inside : Inside (σ := σ) Definite where
  pure _ := by rintro _ _ ⟨⟩
  fail _ := by rintro _ _ ⟨⟩
  bind := Definite.bind
  look := by rintro _ _ ⟨⟩
  onStack _ := definite_onStack _
  onStore {_ f} _ _ := by
    intro ⟨store, stack, frames, world⟩ y
    simp only [onStore]
    split <;> rintro ⟨⟩
  setLocals locals := by
    intro x y
    obtain missing | ⟨frames, -, done⟩ := setLocals_cases locals x
    · rw [missing]
      rintro ⟨⟩
    · rw [done]
      rintro ⟨⟩

theorem definite_onWorld {f : EStateM Halt σ α} (returns : ∀ w w', f w ≠ .error .outOfFuel w') :
    Definite (onWorld f) := by
  intro ⟨store, stack, frames, world⟩ y
  simp only [onWorld]
  split
  · rintro ⟨⟩
  · next now =>
    intro cut
    cases cut
    exact returns _ _ now

theorem definite_pushFrame (maxDepth : Nat) (frame : Frame) :
    Definite (pushFrame maxDepth frame : Exec σ Unit) := by
  intro x y
  rw [pushFrame_eq]
  split_ifs <;> exact nofun

theorem definite_branch (depth : Nat) : Definite (branch depth : Exec σ Unit) := by
  refine definite_inside.bind definite_inside.look fun x => ?_
  dsimp only
  split
  · split_ifs
    · exact (definite_onStack _).bind fun _ => definite_setFrames _
    · exact (definite_onStack _).bind fun _ => definite_setFrames _
    · exact definite_inside.fail _
  · exact definite_inside.fail _

theorem definite_enterFunction (maxDepth : Nat) (f : Func) (owner : Nat) (type : FuncType)
    (args : List Value) : Definite (enterFunction maxDepth f owner type args : Exec σ Unit) :=
  definite_inside.bind definite_inside.look fun _ => (definite_onStack _).bind fun _ =>
    definite_pushFrame _ _

variable {env : Environment σ}

theorem definite_step (returns : env.Returns) (frame : Frame) (outer : List Frame) :
    Definite (step env frame outer) := by
  refine (definite_inside.ofResult _).bind fun code => ?_
  split
  · exact (definite_setFrames _).bind fun _ => definite_onStack _
  · refine (definite_setFrames _).bind fun _ => Definite.bind (nofun : Definite (observe env _)) fun _ => ?_
    exact definite_inside.instruction id Definite.bind
      (fun handle args => definite_onWorld (returns handle args))
      (fun _ _ => definite_inside.top.bind fun _ => (definite_onStack _).bind fun _ =>
        definite_pushFrame _ _)
      (definite_enterFunction _) _ _
      fun _ _ _ _ => definite_inside.plain id Definite.bind definite_branch _ _

/-- A run without loops takes no more steps than its frames weigh. -/
theorem run_ends (returns : env.Returns) {bound fuel : Nat} {x : Execution σ} (straight : x.Straight bound)
    (enough : weight bound env.maxDepth x.frames ≤ fuel) : ¬ Exhausted (run env fuel x) := by
  induction fuel generalizing x with
  | zero =>
    cases frames : x.frames with
    | nil =>
      rw [run_nil 0 frames]
      exact nofun
    | cons frame outer =>
      have pos := Nat.mul_pos frame.remaining_pos (stepWeight_pos bound (env.maxDepth - (outer.length + 1)))
      rw [frames, weight] at enough
      omega
  | succ fuel ih =>
    cases frames : x.frames with
    | nil =>
      rw [run_nil _ frames]
      exact nofun
    | cons frame outer =>
      rw [run_succ fuel frames, runFrom]
      cases now : step env frame outer x with
      | ok _ y =>
        obtain ⟨after, lighter⟩ := (moves_of_step frames now).straight straight
        rw [bind_ok now]
        exact ih after (by omega)
      | error e y =>
        rw [bind_error now]
        rintro ⟨z, cut⟩
        cases cut
        exact definite_step returns frame outer x y now

/-- The frame of the function that is called takes at most `bound` steps, each of the weight of the lowest place. -/
theorem runFunction_ends (returns : env.Returns) {bound fuel : Nat} {s : Store}
    (bodies : ∀ a type f owner, s.func a = .ok ⟨type, .wasm f owner⟩ → WasmEngine.Straight bound f.body)
    {address owner : Nat} {type : FuncType} {f : Func} (found : s.func address = .ok ⟨type, .wasm f owner⟩)
    (args : List Value) (w : σ) (enough : bound * stepWeight bound (env.maxDepth - 1) ≤ fuel)
    (y : Execution σ) : runFunction env fuel f owner type args ⟨s, .empty, [], w⟩ ≠ .error .outOfFuel y := by
  intro cut
  cases entered : enterFunction env.maxDepth f owner type args ⟨s, .empty, [], w⟩ with
  | error e z =>
    rw [runFunction, bind_error entered] at cut
    cases cut
    exact definite_enterFunction _ _ _ _ _ _ _ entered
  | ok _ x =>
    rw [runFunction, bind_ok entered] at cut
    obtain ⟨locals, enters⟩ := enters_of_enterFunction entered
    have short := bodies address type f owner found
    have straight : x.Straight bound := by
      refine enters.straight ⟨List.forall_mem_nil _, bodies⟩ rfl fun code runs => ?_
      cases runs
      exact short
    have light : weight bound env.maxDepth x.frames ≤ fuel := by
      have le := Nat.mul_le_mul_right (stepWeight bound (env.maxDepth - 1))
        (Frame.remaining_le (f := .call f owner locals type.result.length 0) rfl short)
      rw [enters.result]
      refine Nat.le_trans ?_ (Nat.le_trans le enough)
      exact Nat.le_of_eq (Nat.zero_add _)
    have ended := run_ends returns straight light
    cases ran : run env fuel x with
    | error e z =>
      rw [bind_error ran] at cut
      cases cut
      exact ended ⟨y, ran⟩
    | ok _ z =>
      rw [bind_ok ran] at cut
      refine Definite.bind (definite_onStack _) (fun results => ?_) z y cut
      refine definite_inside.bind definite_inside.look fun _ => ?_
      dsimp only
      split
      · exact definite_inside.pure _
      · exact definite_inside.fail _

end Exec

/-- Where no function has a loop, every call from outside comes to an end, with results or an error: in a number of
steps that depends on the store and the bound on frames alone.  Functions of the embedding return. -/
theorem invoke_ends (env : Environment σ) (returns : env.Returns) {s : Store} (loopFree : s.LoopFree) :
    ∃ steps, ∀ fuel, steps ≤ fuel → ∀ address args w w',
      invoke env fuel address args (s, w) ≠ .error .outOfFuel w' := by
  obtain ⟨bound, straight⟩ := loopFree.exists_bound
  refine ⟨bound * stepWeight bound (env.maxDepth - 1), fun fuel enough address args w w' => ?_⟩
  cases found : s.func address with
  | error e =>
    simp only [invoke, found]
    rintro ⟨⟩
  | ok callee =>
    obtain ⟨type, code⟩ := callee
    by_cases count : args.length = type.args.length
    · cases code with
      | host handle =>
        rw [invoke_host found count]
        cases now : env.call handle (castArgs args type) w with
        | ok results w => rintro ⟨⟩
        | error e w₁ =>
          intro cut
          cases cut
          exact returns _ _ _ _ now
      | wasm f owner =>
        rw [invoke_wasm found count]
        have ends := Exec.runFunction_ends returns straight found (castArgs args type) w enough
        cases now : Exec.runFunction env fuel f owner type (castArgs args type) ⟨s, .empty, [], w⟩ with
        | ok results y => rintro ⟨⟩
        | error e y =>
          intro cut
          cases cut
          exact ends y now
    · simp only [invoke, found, ne_eq, count, not_false_eq_true, if_true]
      rintro ⟨⟩

/-- A store whose only function calls itself. -/
def callsItself : Store := ⟨#[some (constantly [.call (.number ⟨0, "0"⟩)])], #[⟨[], [0], [], [], [], []⟩]⟩

/-- It never returns, and yet every call of it comes to an end. -/
theorem invoke_ends_callsItself : (alone.withDepth 3).Returns ∧ callsItself.LoopFree ∧
    ∃ steps, ∀ fuel, steps ≤ fuel → ∀ address args w w',
      invoke (alone.withDepth 3) fuel address args (callsItself, w) ≠ .error .outOfFuel w' := by
  have returns : (alone.withDepth 3).Returns := fun _ _ _ _ => nofun
  have loopFree : callsItself.LoopFree := by
    intro a type f owner here
    cases a with
    | zero =>
      cases here
      exact ⟨trivial, trivial⟩
    | succ a => cases here
  exact ⟨returns, loopFree, invoke_ends _ returns loopFree⟩

end WasmEngine
