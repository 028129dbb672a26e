import WasmEngine.Proofs.Machine.FrameStack

/-!
# Jumps

What is left of the stack at the end of a frame and after a branch is known from what stands under the label that
the frame has (`Stack.exitLabel_eq_ok_iff`, `Exec.branch_eq_ok_iff`).  An instruction that branches is a jump
(`Jumps`), and by no other is there ever a frame less (`Exec.jumps_of_fewer`).
-/

namespace WasmEngine

open Outcome Structured

namespace Stack

variable {s s' : Stack}

theorem pop_eq_ok_iff {v : Value} : pop s = .ok v s' ↔ s.entries = .value v :: s'.entries := by
  refine ⟨entries_of_pop, fun here => ?_⟩
  simp only [pop, here]

theorem popI32_eq_ok_iff {c : BitVec 32} :
    popI32 s = .ok c s' ↔ s.entries = .value (.i32 c) :: s'.entries := by
  constructor
  · intro popped
    obtain ⟨v, t, taken, last⟩ := run_bind_eq_ok_iff.1 popped
    obtain ⟨type, here⟩ := popTyped_eq_ok taken
    cases v with
    | i32 b =>
      cases last
      exact here
    | _ => cases type
  · intro here
    have taken : popTyped .i32 s = .ok (.i32 c) s' := bind_ok (pop_eq_ok_iff.2 here)
    exact bind_ok taken

/-- Popping `n` values takes the topmost `n`, and those only. -/
theorem popOnto_eq_ok_iff {n : Nat} {taken ws : List Value} :
    popOnto taken n s = .ok ws s' ↔
      ∃ vs, vs.length = n ∧ ws = vs ++ taken ∧ s = stacked s'.entries vs := by
  induction n generalizing taken s with
  | zero =>
    constructor
    · intro popped
      cases popped
      exact ⟨[], rfl, rfl, rfl⟩
    · rintro ⟨vs, none, rfl, rfl⟩
      rw [List.length_eq_zero_iff] at none
      subst none
      rfl
  | succ n ih =>
    constructor
    · intro popped
      obtain ⟨v, t, first, rest⟩ := run_bind_eq_ok_iff.1 popped
      obtain ⟨vs, count, rfl, rfl⟩ := ih.1 rest
      refine ⟨vs ++ [v], by rw [List.length_append, count]; rfl, by rw [List.append_assoc]; rfl, ?_⟩
      obtain ⟨entries⟩ := s
      rw [stacked, List.map_append, List.reverse_append]
      exact congrArg Stack.mk (entries_of_pop first)
    · rintro ⟨vs, count, rfl, rfl⟩
      obtain rfl | ⟨us, v, rfl⟩ := List.eq_nil_or_concat' vs
      · cases count
      · rw [List.length_append, List.length_singleton, Nat.add_right_cancel_iff] at count
        have first : pop (stacked s'.entries (us ++ [v])) = .ok v (stacked s'.entries us) :=
          pop_eq_ok_iff.2 (by rw [stacked, List.map_append, List.reverse_append]; rfl)
        rw [popOnto, bind_ok first]
        exact ih.2 ⟨us, count, by rw [List.append_assoc]; rfl, rfl⟩

/-- So many values are taken off a stack exactly if they stand on top of it. -/
theorem popN_eq_ok_iff {n : Nat} {vs : List Value} :
    popN n s = .ok vs s' ↔ vs.length = n ∧ s = stacked s'.entries vs := by
  rw [popN, popOnto_eq_ok_iff]
  constructor
  · rintro ⟨us, count, rfl, here⟩
    rw [List.append_nil]
    exact ⟨count, here⟩
  · rintro ⟨count, here⟩
    exact ⟨vs, count, (List.append_nil vs).symm, here⟩

/-- The topmost values come in place of the innermost label and all above it. -/
theorem exitLabel_eq_ok_iff {arity label : Nat} {below : List StackEntry}
    (found : findLabel? 0 s.entries = some (label, below)) :
    exitLabel arity s = .ok () s' ↔
      ∃ vs rest, vs.length = arity ∧ s = stacked rest vs ∧ s' = stacked below vs := by
  have looks (t : Stack) : (get : StackM Stack) t = .ok t t := rfl
  have under {vs : List Value} {t : Stack} (here : s = stacked t.entries vs) :
      findLabel? 0 t.entries = some (label, below) := by
    rwa [here, findLabel?_stacked] at found
  constructor
  · intro left
    obtain ⟨vs, t, popped, rest⟩ := run_bind_eq_ok_iff.1 left
    obtain ⟨count, here⟩ := popN_eq_ok_iff.1 popped
    rw [bind_ok (looks t)] at rest
    simp only [under here] at rest
    change EStateM.Result.ok () (stacked below vs) = .ok () s' at rest
    cases rest
    exact ⟨vs, t.entries, count, here, rfl⟩
  · rintro ⟨vs, rest, count, here, rfl⟩
    have popped : popN arity s = .ok vs ⟨rest⟩ := popN_eq_ok_iff.2 ⟨count, here⟩
    rw [exitLabel, bind_ok popped, bind_ok (looks _)]
    simp only [under (t := ⟨rest⟩) here]
    rfl

/-- The values that a label carries come in its place, or over it where it stays. -/
theorem branch_eq_ok_iff {depth arity n : Nat} {below : List StackEntry} {keep : Bool}
    (found : findLabel? depth s.entries = some (arity, below)) :
    branch depth keep s = .ok n s' ↔ n = arity ∧ ∃ vs rest, vs.length = arity ∧ s = stacked rest vs ∧
      s' = stacked (if keep then .label arity :: below else below) vs := by
  have unfolded : branch depth keep s = (do
      let results ← popN arity
      set (⟨if keep then .label arity :: below else below⟩ : Stack)
      pushAll results
      return arity : StackM Nat) s := by
    simp only [branch, bind, EStateM.bind, Outcome.run_get, found]
  rw [unfolded, run_bind_eq_ok_iff]
  constructor
  · rintro ⟨vs, t, popped, last⟩
    obtain ⟨count, here⟩ := popN_eq_ok_iff.1 popped
    cases last
    exact ⟨rfl, vs, t.entries, count, here, rfl⟩
  · rintro ⟨rfl, vs, rest, count, here, rfl⟩
    exact ⟨vs, ⟨rest⟩, popN_eq_ok_iff.2 ⟨count, here⟩, rfl⟩

end Stack

/-- An instruction branches, in the innermost of `count` frames, which is one of the function at the place
`function`.  It branches to a depth, with the stack that its condition or selector leaves. -/
inductive Jumps (count function : Nat) (s : Stack) : Node → Nat → Stack → Prop
  | br {args : List Node} {memArg : Option MemArg} {n : NumberLiteral}
      (target : args[0]? = some (.number n)) :
      Jumps count function s (.instr "br" none args memArg) n.toU32 s
  | brIf {args : List Node} {memArg : Option MemArg} {n : NumberLiteral} {condition : BitVec 32}
      {rest : List StackEntry} (taken : s.entries = .value (.i32 condition) :: rest)
      (holds : condition ≠ 0) (target : args[0]? = some (.number n)) :
      Jumps count function s (.instr "br_if" none args memArg) n.toU32 ⟨rest⟩
  | brTable {args : List Node} {memArg : Option MemArg} {n : NumberLiteral} {selector : BitVec 32}
      {rest : List StackEntry} (taken : s.entries = .value (.i32 selector) :: rest)
      (target : args[min selector.toNat (args.length - 1)]? = some (.number n)) :
      Jumps count function s (.instr "br_table" none args memArg) n.toU32 ⟨rest⟩
  | leave {args : List Node} {memArg : Option MemArg} :
      Jumps count function s (.instr "return" none args memArg) (count - 1 - function) s

/-- A condition and a selector are values, so that the labels stay. -/
theorem Jumps.floor_eq {count function depth : Nat} {s rest : Stack} {node : Node}
    (jumps : Jumps count function s node depth rest) : rest.floor = s.floor := by
  cases jumps with
  | br => rfl
  | leave => rfl
  | brIf taken | brTable taken =>
    rw [Stack.floor, Stack.floor, taken]
    rfl

namespace Exec

variable {σ : Type} {env : Environment σ} {x y : Execution σ} {frame : Frame} {outer : List Frame}

/-- An index argument is the number that stands at its position. -/
theorem indexArg_eq_ok_iff {name : String} {args : List Node} {position i : Nat} :
    indexArg name args position x = .ok i y ↔
      y = x ∧ ∃ n, args[position]? = some (.number n) ∧ i = n.toU32 := by
  unfold indexArg
  constructor
  · intro found
    cases at_ : args[position]? with
    | none =>
      rw [at_] at found
      cases found
    | some node =>
      rw [at_] at found
      cases node with
      | number n =>
        cases found
        exact ⟨rfl, n, rfl, rfl⟩
      | _ => cases found
  · rintro ⟨rfl, n, at_, rfl⟩
    rw [at_]
    rfl

/-- An operation of the stack succeeds as it does on the stack alone. -/
theorem onStack_eq_ok_iff {α : Type} {f : StackM α} {a : α} :
    onStack f x = .ok a y ↔ ∃ s, f x.stack = .ok a s ∧ y = { x with stack := s } := by
  refine ⟨onStack_eq_ok, ?_⟩
  rintro ⟨s, done, rfl⟩
  exact onStack_ok done

/-- A branch leads to a frame of the function that runs, if there are the values that the label carries. -/
theorem branch_eq_ok_iff {depth arity : Nat} {target : Frame} {below : List StackEntry}
    (frames : x.frames = frame :: outer) (at_ : x.frames[depth]? = some target)
    (found : Stack.findLabel? depth x.stack.entries = some (arity, below)) :
    branch depth x = .ok () y ↔ frame.function + depth < x.frames.length ∧
      ∃ vs rest, vs.length = arity ∧ x.stack = Stack.stacked rest vs ∧
        y = { x with
          stack := Stack.stacked (if target.isLoop then .label arity :: below else below) vs
          frames := if target.isLoop then { target with pc := 0 } :: x.frames.drop (depth + 1)
            else x.frames.drop (depth + 1) } := by
  by_cases inside : frame.function + depth < x.frames.length
  · rw [branch_eq frames at_ inside, run_bind_eq_ok_iff]
    constructor
    · rintro ⟨n, z, unwound, last⟩
      obtain ⟨s, branched, rfl⟩ := onStack_eq_ok unwound
      obtain ⟨-, vs, rest, count, here, rfl⟩ := (Stack.branch_eq_ok_iff found).1 branched
      cases last
      exact ⟨inside, vs, rest, count, here, rfl⟩
    · rintro ⟨-, vs, rest, count, here, rfl⟩
      have unwound : Stack.branch depth target.isLoop x.stack = .ok arity
          (Stack.stacked (if target.isLoop then .label arity :: below else below) vs) :=
        (Stack.branch_eq_ok_iff found).2 ⟨rfl, vs, rest, count, here, rfl⟩
      exact ⟨arity, _, onStack_ok unwound, rfl⟩
  · rw [branch_eq_error frames inside]
    constructor
    · nofun
    · rintro ⟨inside', -⟩
      exact absurd inside' inside

/-- A jump is a branch. -/
theorem instruction_of_jumps (frames : x.frames = frame :: outer) {position depth : Nat} {node : Node}
    {rest : Stack} (jumps : Jumps x.frames.length frame.function x.stack node depth rest) :
    instruction env position node x = branch depth { x with stack := rest } := by
  have popped {c : BitVec 32} {rest : List StackEntry} (taken : x.stack.entries = .value (.i32 c) :: rest) :
      (onStack Stack.popI32 x : EStateM.Result Halt (Execution σ) (BitVec 32)) =
        .ok c { x with stack := ⟨rest⟩ } :=
    onStack_ok (Stack.popI32_eq_ok_iff.2 taken)
  have found {name : String} {args : List Node} {position : Nat} {n : NumberLiteral} (z : Execution σ)
      (target : args[position]? = some (.number n)) :
      indexArg name args position z = .ok n.toU32 z := indexArg_eq_ok_iff.2 ⟨rfl, n, target, rfl⟩
  cases jumps with
  | br target => exact bind_ok (found x target)
  | brIf taken holds target =>
    refine (bind_ok (popped taken)).trans ?_
    rw [if_neg holds]
    exact bind_ok (found _ target)
  | @brTable args memArg n selector rest taken target =>
    have some : args.isEmpty = false := by
      cases args with
      | nil => cases target
      | cons => rfl
    refine (bind_ok (popped taken)).trans ?_
    rw [some]
    exact bind_ok (found _ target)
  | leave =>
    obtain ⟨store, stack, _, world⟩ := x
    cases frames
    rfl

/-- The state in which a jump branches, from the one in which its frame stands at it. -/
def jumping (env : Environment σ) (x : Execution σ) (frame : Frame) (outer : List Frame) (node : Node)
    (rest : Stack) : Execution σ :=
  { x with
    stack := rest
    frames := frame.advance 1 :: outer
    world := env.observe x.frames.length (node.instructionName?.getD "") x.world }

/-- A jump runs as the branch to its depth, from the stack without its condition. -/
theorem step_of_jumps (frames : x.frames = frame :: outer) {code : List Node} {node : Node} {depth : Nat}
    {rest : Stack} (runs : frame.code = .ok code) (at_ : code[frame.pc]? = some node)
    (jumps : Jumps x.frames.length frame.function x.stack node depth rest) :
    step env frame outer x = branch depth (jumping env x frame outer node rest) := by
  rw [step_next runs at_, jumping, frames]
  rw [frames] at jumps
  exact instruction_of_jumps (show _ = frame.advance 1 :: outer from rfl) jumps

/-- Only a branch, and only by a jump, is ever the reason that there is a frame less. -/
theorem jumps_of_fewer (function : Nat) {position : Nat} {node : Node}
    (done : instruction env position node x = .ok () y) (fewer : y.frames.length < x.frames.length) :
    ∃ depth rest, Jumps x.frames.length function x.stack node depth rest := by
  have inside := Execution.Stays.quiet (σ := σ).inside
  have simple {m : Exec σ Unit} (stays : Respects Execution.Stays m) (x y : Execution σ)
      (done : m x = .ok () y) : x.frames.length ≤ y.frames.length :=
    Nat.le_of_eq (Execution.Stays.length (.of_respects stays done)).symm
  have after {α : Type} {m : Exec σ α} {f : α → Exec σ Unit} (stays : Respects Execution.Stays m)
      (rest : ∀ a x y, f a x = .ok () y → x.frames.length ≤ y.frames.length) (x y : Execution σ)
      (done : (m >>= f) x = .ok () y) : x.frames.length ≤ y.frames.length := by
    obtain ⟨a, z, first, second⟩ := run_bind_eq_ok_iff.1 done
    exact Nat.le_trans (Nat.le_of_eq (Execution.Stays.length (.of_respects stays first)).symm) (rest a z y second)
  have enters {frame : Frame} {x y : Execution σ} (entered : Execution.Enters env.maxDepth frame x y) :
      x.frames.length ≤ y.frames.length := by
    rw [entered.result]
    exact Nat.le_succ _
  by_cases leaves : ∃ id args memArg, node = .instr id none args memArg ∧ id ∈ leaving
  · obtain ⟨id, args, memArg, rfl, leaves⟩ := leaves
    simp only [leaving, List.mem_cons, List.not_mem_nil, or_false] at leaves
    obtain rfl | rfl | rfl | rfl := leaves
    · obtain ⟨depth, z, found, -⟩ := run_bind_eq_ok_iff.1 done
      obtain ⟨-, n, target, -⟩ := indexArg_eq_ok_iff.1 found
      exact ⟨_, _, .br target⟩
    · obtain ⟨condition, z, popped, rest⟩ := run_bind_eq_ok_iff.1 done
      obtain ⟨s, taken, rfl⟩ := onStack_eq_ok popped
      split at rest
      · cases rest
        exact absurd fewer (Nat.lt_irrefl _)
      · next holds =>
        obtain ⟨depth, z, found, -⟩ := run_bind_eq_ok_iff.1 rest
        obtain ⟨-, n, target, -⟩ := indexArg_eq_ok_iff.1 found
        exact ⟨_, _, .brIf (Stack.popI32_eq_ok_iff.1 taken) holds target⟩
    · obtain ⟨selector, z, popped, rest⟩ := run_bind_eq_ok_iff.1 done
      obtain ⟨s, taken, rfl⟩ := onStack_eq_ok popped
      dsimp only at rest
      split at rest
      · cases rest
      · obtain ⟨depth, z, found, -⟩ := run_bind_eq_ok_iff.1 rest
        obtain ⟨-, n, target, -⟩ := indexArg_eq_ok_iff.1 found
        exact ⟨_, _, .brTable (Stack.popI32_eq_ok_iff.1 taken) target⟩
    · exact ⟨_, _, .leave⟩
  · refine absurd ?_ (Nat.not_le_of_lt fewer)
    refine inside.instruction (Q := fun m => ∀ x y, m x = .ok () y → x.frames.length ≤ y.frames.length)
      simple after (fun _ _ => stays_onWorld _) ?_ ?_ position node ?_ x y done
    · intro step result x y entered
      obtain ⟨_, _, -, entered⟩ := enters_of_enterBlock entered
      exact enters entered
    · intro f owner type args x y entered
      obtain ⟨_, entered⟩ := enters_of_enterFunction entered
      exact enters entered
    · intro id args memArg here
      exact simple (inside.staying (fun listed => leaves ⟨id, args, memArg, here, listed⟩) args)

end Exec

end WasmEngine
