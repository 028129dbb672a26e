import Mathlib
import WasmEngine.Proofs.Machine.Effects
import WasmEngine.Proofs.Machine.Invocation

/-!
# The bound on frames

A run looks at the bound on frames only where it enters one.  So a run under a bound and a run under a
greater one go step by step together (`Relaxes.run`) until the first is refused a frame, if it ever is; and no
state of a run has more frames than the bound (`length_le_of_visits`).
-/

namespace WasmEngine

open Outcome Structured

section

variable {τ α β : Type}

/-- A computation ended where it was refused a frame. -/
def Overflows (r : EStateM.Result Halt τ α) : Prop := ∃ s, r = .error (.fault .callStackOverflow) s

/-- The second computation does what the first one does, unless that is refused a frame. -/
def Relaxes (m m' : EStateM Halt τ α) : Prop := ∀ x, ¬ Overflows (m x) → m' x = m x

namespace Relaxes

/-- A step relaxes to itself. -/
theorem refl (m : EStateM Halt τ α) : Relaxes m m := fun _ _ => rfl

/-- What is refused a frame in its first part is refused it as a whole, so that the first parts agree. -/
theorem bind {m m' : EStateM Halt τ α} {f f' : α → EStateM Halt τ β} (first : Relaxes m m')
    (rest : ∀ a, Relaxes (f a) (f' a)) : Relaxes (m >>= f) (m' >>= f') := by
  intro x fits
  cases now : m x with
  | ok a y =>
    have same : m' x = .ok a y := by
      rw [first x (by rw [now]; rintro ⟨_, overflow⟩; cases overflow), now]
    rw [bind_ok now] at fits ⊢
    rw [bind_ok same]
    exact rest a y fits
  | error e y =>
    rw [bind_error now] at fits ⊢
    have same : m' x = .error e y := by
      rw [first x (by rw [now]; rintro ⟨_, overflow⟩; cases overflow; exact fits ⟨_, rfl⟩), now]
    exact bind_error same

/-- The rest is the same function of what the first part finds. -/
theorem after (m : EStateM Halt τ α) {f f' : α → EStateM Halt τ β}
    (rest : ∀ a, Relaxes (f a) (f' a)) : Relaxes (m >>= f) (m >>= f') := bind (refl m) rest

end Relaxes

end

variable {σ : Type} {env : Environment σ} {d d' : Nat}

/-- The same embedding with another bound on frames. -/
def Environment.withDepth (env : Environment σ) (maxDepth : Nat) : Environment σ := { env with maxDepth }

namespace Relaxes

variable (le : d ≤ d')
include le

/-! ## Frames -/

/-- A larger bound lets a frame be pushed wherever a smaller one does. -/
theorem pushFrame (frame : Frame) :
    Relaxes (Exec.pushFrame d frame : Exec σ Unit) (Exec.pushFrame d' frame) := by
  intro x fits
  rw [pushFrame_eq] at fits ⊢
  rw [pushFrame_eq]
  by_cases full : d ≤ x.frames.length
  · rw [if_pos full] at fits
    exact absurd ⟨x, rfl⟩ fits
  · rw [if_neg full, if_neg (by omega)]

/-- A larger bound lets a function be entered wherever a smaller one does. -/
theorem enterFunction (f : Func) (owner : Nat) (type : FuncType) (args : List Value) :
    Relaxes (Exec.enterFunction d f owner type args : Exec σ Unit)
      (Exec.enterFunction d' f owner type args) :=
  after _ fun _ => after _ fun _ => pushFrame le _

/-- A larger bound lets a block be entered wherever a smaller one does. -/
theorem enterBlock (step : Step) (result : Option Valtype) :
    Relaxes (Exec.enterBlock d step result : Exec σ Unit) (Exec.enterBlock d' step result) :=
  after _ fun _ => after _ fun _ => pushFrame le _

/-! ## Instructions -/

/-- A call under a larger bound does what it does under a smaller one that it keeps within. -/
theorem call (address : Nat) :
    Relaxes (Exec.call (env.withDepth d) address) (Exec.call (env.withDepth d') address) := by
  refine after _ fun x => after _ fun callee => after _ fun args => ?_
  split
  · exact refl _
  · exact enterFunction le _ _ _ _

/-- Only the instructions that enter a frame look at the bound. -/
theorem instruction (position : Nat) (node : Node) :
    Relaxes (Exec.instruction (env.withDepth d) position node)
      (Exec.instruction (env.withDepth d') position node) := by
  unfold Exec.instruction
  split
  · exact refl _
  · exact refl _
  · exact enterBlock le _ _
  · exact enterBlock le _ _
  · exact after _ fun _ => enterBlock le _ _
  · exact after _ fun _ => after _ fun _ => after _ fun _ => call le _
  · refine after _ fun _ => after _ fun _ => after _ fun _ => after _ fun _ => after _ fun _ =>
      after _ fun _ => after _ fun _ => after _ fun _ => after _ fun _ => ?_
    split
    · exact call le _
    · exact refl _
  · exact refl _

/-! ## Runs -/

/-- A step of the machine under a larger bound does what it does under a smaller one that it keeps within. -/
theorem step (frame : Frame) (outer : List Frame) :
    Relaxes (Exec.step (env.withDepth d) frame outer) (Exec.step (env.withDepth d') frame outer) := by
  refine after _ fun code => ?_
  split
  · exact refl _
  · exact after _ fun _ => after _ fun _ => instruction le _ _

/-- A run under a larger bound does what it does under a smaller one that it keeps within. -/
theorem run (fuel : Nat) :
    Relaxes (Exec.run (env.withDepth d) fuel) (Exec.run (env.withDepth d') fuel) := by
  induction fuel with
  | zero =>
    intro x _
    cases frames : x.frames with
    | nil => rw [run_nil 0 frames, run_nil 0 frames]
    | cons frame outer => rw [run_zero frames, run_zero frames]
  | succ fuel ih =>
    intro x fits
    cases frames : x.frames with
    | nil => rw [run_nil _ frames, run_nil _ frames]
    | cons frame outer =>
      rw [run_succ fuel frames] at fits ⊢
      rw [run_succ fuel frames]
      exact bind (step le frame outer) (fun _ => ih) x fits

/-- A whole call of a function relaxes with its bound. -/
theorem runFunction (fuel : Nat) (f : Func) (owner : Nat) (type : FuncType) (args : List Value) :
    Relaxes (Exec.runFunction (env.withDepth d) fuel f owner type args)
      (Exec.runFunction (env.withDepth d') fuel f owner type args) :=
  bind (enterFunction le f owner type args) fun _ => bind (run le fuel) fun _ => refl _

/-- A call from outside is refused a frame where the run of its function is. -/
theorem invoke (fuel address : Nat) (args : List Value) :
    Relaxes (invoke (env.withDepth d) fuel address args) (WasmEngine.invoke (env.withDepth d') fuel address args) := by
  intro s fits
  cases found : s.1.func address with
  | error e => simp only [WasmEngine.invoke, found]
  | ok callee =>
    obtain ⟨type, code⟩ := callee
    by_cases count : args.length = type.args.length
    · cases code with
      | host handle =>
        rw [invoke_host found count, invoke_host found count]
        rfl
      | wasm f owner =>
        rw [invoke_wasm found count] at fits ⊢
        rw [invoke_wasm found count, runFunction le fuel f owner type _ _ fun overflow => ?_]
        obtain ⟨x, overflow⟩ := overflow
        exact fits ⟨(x.store, x.world), by rw [overflow]; rfl⟩
    · simp only [WasmEngine.invoke, found, ne_eq, count, not_false_eq_true, if_true]

end Relaxes

/-! ## The frames of a run -/

/-- A state in which a call from outside stands after some number of steps, or ends. -/
def Visits (env : Environment σ) (address : Nat) (args : List Value) (before : Store × σ)
    (x : Execution σ) : Prop :=
  ∃ f owner type fuel, before.1.func address = .ok ⟨type, .wasm f owner⟩ ∧
    args.length = type.args.length ∧
    x = final (runFrom env (Exec.enterFunction env.maxDepth f owner type (castArgs args type))
      ⟨before.1, .empty, [], before.2⟩ fuel)

/-- No step puts a frame above the bound. -/
theorem allows_length_le (d : Nat) :
    Exec.Allows d (fun _ _ : σ => True) fun x y => x.frames.length ≤ d → y.frames.length ≤ d where
  refl _ le := le
  trans first second le := second (first le)
  stack _ _ le := le
  world _ _ _ le := le
  frames _ _ fewer le := Nat.le_trans fewer le
  push _ _ lt _ := lt
  store _ _ _ le := le

/-- No state of a run has more frames than the bound. -/
theorem length_le_of_visits {address : Nat} {args : List Value} {before : Store × σ} {x : Execution σ}
    (visits : Visits (env.withDepth d) address args before x) : x.frames.length ≤ d := by
  obtain ⟨f, owner, type, fuel, -, -, rfl⟩ := visits
  have allows := allows_length_le (σ := σ) d
  have keeps : (env.withDepth d).Keeps fun _ _ => True := ⟨fun _ _ _ => trivial, fun _ _ _ => trivial⟩
  exact allows.bind (allows.enterFunction f owner type _) (fun _ => allows.run keeps rfl fuel) _
    (Nat.zero_le d)

/-- A call that is not refused a frame under a bound ends the same, at the same store and world, under every
greater one; and no state of it has more frames than its bound. -/
theorem invoke_withDepth (env : Environment σ) (le : d ≤ d') (address : Nat) (args : List Value)
    (before : Store × σ) :
    (∀ fuel, ¬ Overflows (invoke (env.withDepth d) fuel address args before) →
      invoke (env.withDepth d') fuel address args before =
        invoke (env.withDepth d) fuel address args before) ∧
    ∀ x, Visits (env.withDepth d) address args before x → x.frames.length ≤ d :=
  ⟨fun fuel => Relaxes.invoke le fuel address args before, fun _ => length_le_of_visits⟩

/-- A function without parameters, of instance 0, that gives what its body leaves. -/
def constantly (body : List Node) : StoreEntry :=
  .func ⟨⟨[], [.i32]⟩, .wasm ⟨.ofString "f", .inline ⟨[], [.i32]⟩, [], body, none⟩ 0⟩

/-- A store whose first function calls the second. -/
def callsOnce : Store :=
  ⟨#[some (constantly [.call (.number ⟨1, "1"⟩)]),
    some (constantly [.instr "const" (some .i32) [.number ⟨7, "7"⟩] none])],
    #[⟨[], [0, 1], [], [], [], []⟩]⟩

/-- An embedding without functions and without frames. -/
def alone : Environment Unit := ⟨0, fun _ _ => return [], fun _ _ w => w⟩

/-- Its first function needs two frames, and more do not change what it gives. -/
theorem invoke_withDepth_callsOnce :
    Overflows (invoke (alone.withDepth 1) 5 0 [] (callsOnce, ())) ∧
    invoke (alone.withDepth 2) 5 0 [] (callsOnce, ()) = .ok [.i32 7] (callsOnce, ()) ∧
    invoke (alone.withDepth 3) 5 0 [] (callsOnce, ()) = .ok [.i32 7] (callsOnce, ()) := by
  have ends : invoke (alone.withDepth 2) 5 0 [] (callsOnce, ()) = .ok [.i32 7] (callsOnce, ()) := by
    cbv
  refine ⟨⟨(callsOnce, ()), by cbv⟩, ends, ?_⟩
  rw [(invoke_withDepth alone (Nat.le_succ 2) 0 [] (callsOnce, ())).1 5, ends]
  rw [ends]
  rintro ⟨_, overflow⟩
  cases overflow

end WasmEngine
