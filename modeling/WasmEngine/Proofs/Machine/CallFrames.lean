import WasmEngine.Machine.Stack
import WasmEngine.Proofs.Machine.Structured
import WasmEngine.Proofs.Outcome

/-!
# The frames of one call

An operation on the operands of a sequence does the same whatever lies below them, as long as that starts with
a label or is nothing.  `Site` describes a place in a call: the sequence that runs, what is open around it, and
what lies below.  An operation of a structured evaluation lifts to a site if the machine does the same there and
leaves all the rest alone.
-/

namespace WasmEngine.Stack

open Outcome

variable {α β : Type}

/-! ## Taking values off a stack -/

/-- A pop that succeeds took the value on top. -/
theorem entries_of_pop {v : Value} {s s' : Stack} (popped : pop s = .ok v s') :
    s.entries = .value v :: s'.entries := by
  unfold pop at popped
  split at popped
  · next here =>
    cases popped
    exact here
  · cases popped

/-- A typed pop that succeeds took a value of that type. -/
theorem popTyped_eq_ok {t : Valtype} {v : Value} {s s' : Stack}
    (popped : popTyped t s = .ok v s') : v.type = t ∧ s.entries = .value v :: s'.entries := by
  cases first : pop s with
  | error e s₁ =>
    rw [popTyped, bind_error first] at popped
    cases popped
  | ok w s₁ =>
    rw [popTyped, bind_ok first] at popped
    by_cases same : w.type = t
    · rw [if_pos same] at popped
      cases popped
      exact ⟨same, entries_of_pop first⟩
    · rw [if_neg same] at popped
      cases popped

/-- Popping a list of types shortens the stack by its length. -/
theorem length_of_popTypesOnto {taken vs : List Value} {ts : List Valtype} {s s' : Stack}
    (popped : popTypesOnto taken ts s = .ok vs s') :
    s.entries.length = s'.entries.length + ts.length := by
  induction ts generalizing taken s with
  | nil =>
    cases popped
    rfl
  | cons t ts ih =>
    cases first : popTyped t s with
    | error e s₁ =>
      rw [popTypesOnto, bind_error first] at popped
      cases popped
    | ok v s₁ =>
      rw [popTypesOnto, bind_ok first] at popped
      rw [(popTyped_eq_ok first).2, List.length_cons, ih popped, List.length_cons, Nat.add_assoc]

/-- Popping `n` values adds `n` to those taken. -/
theorem length_of_popOnto {taken vs : List Value} {n : Nat} {s s' : Stack}
    (taken' : popOnto taken n s = .ok vs s') : vs.length = taken.length + n := by
  induction n generalizing taken s with
  | zero =>
    cases taken'
    rfl
  | succ n ih =>
    cases first : pop s with
    | ok v s₁ =>
      rw [popOnto, bind_ok first] at taken'
      rw [ih taken', List.length_cons, Nat.add_right_comm, Nat.add_assoc]
    | error e s₁ =>
      rw [popOnto, bind_error first] at taken'
      cases taken'

/-! ## Values over other entries -/

/-- The stack of values over other entries.  The topmost value is the last. -/
def stacked (below : List StackEntry) (vs : List Value) : Stack :=
  ⟨(vs.map StackEntry.value).reverse ++ below⟩

/-- Entries with no value on top. -/
def Closed : List StackEntry → Prop
  | .value _ :: _ => False
  | _ => True

@[simp] theorem closed_nil : Closed [] := trivial

@[simp] theorem closed_label (arity : Nat) (below : List StackEntry) :
    Closed (.label arity :: below) := trivial

/-- An operation that does the same over all entries with no value on top. -/
def Local (f : StackM α) : Prop :=
  ∀ vs, ∃ r : EStateM.Result Fault (List Value) α,
    ∀ below, Closed below → f (stacked below vs) = onState (stacked below) r

@[simp] theorem stacked_stacked (below : List StackEntry) (vs ws : List Value) :
    stacked (stacked below vs).entries ws = stacked below (vs ++ ws) := by
  simp [stacked]

theorem local_pure (a : α) : Local (pure a) := fun vs => ⟨.ok a vs, fun _ _ => rfl⟩

theorem local_throw (e : Fault) : Local (throw e : StackM α) := fun vs =>
  ⟨.error e vs, fun _ _ => rfl⟩

/-- Local steps in sequence are local. -/
theorem Local.bind {f : StackM α} {g : α → StackM β} (hf : Local f) (hg : ∀ a, Local (g a)) :
    Local (f >>= g) := by
  intro vs
  obtain ⟨first, runs⟩ := hf vs
  cases first with
  | ok a ws =>
    obtain ⟨second, goes⟩ := hg a ws
    exact ⟨second, fun below closed => (bind_ok (runs below closed)).trans (goes below closed)⟩
  | error e ws => exact ⟨.error e ws, fun below closed => bind_error (runs below closed)⟩

theorem local_push (v : Value) : Local (push v) := fun vs =>
  ⟨.ok () (vs ++ [v]), fun below _ => by simp [push, run_modify, stacked]⟩

theorem local_pushAll (ws : List Value) : Local (pushAll ws) := fun vs =>
  ⟨.ok () (vs ++ ws), fun below _ => by simp [pushAll, run_modify, stacked]⟩

theorem local_pop : Local pop := by
  intro vs
  obtain rfl | ⟨vs, v, rfl⟩ := List.eq_nil_or_concat' vs
  · refine ⟨.error .stackUnderflow [], fun below closed => ?_⟩
    cases below with
    | nil => rfl
    | cons entry below =>
      cases entry with
      | value v => exact closed.elim
      | label arity => rfl
  · exact ⟨.ok v vs, fun below _ => by simp [pop, stacked]⟩

theorem local_popTyped (t : Valtype) : Local (popTyped t) := by
  refine local_pop.bind fun v => ?_
  split
  · exact local_pure v
  · exact local_throw _

theorem local_popOnto (taken : List Value) (n : Nat) : Local (popOnto taken n) := by
  induction n generalizing taken with
  | zero => exact local_pure taken
  | succ n ih => exact local_pop.bind fun v => ih (v :: taken)

theorem local_popN (n : Nat) : Local (popN n) := local_popOnto [] n

theorem local_popTypesOnto (taken : List Value) (ts : List Valtype) :
    Local (popTypesOnto taken ts) := by
  induction ts generalizing taken with
  | nil => exact local_pure taken
  | cons t ts ih => exact (local_popTyped t).bind fun v => ih (v :: taken)

theorem local_popTypes (ts : List Valtype) : Local (popTypes ts) := local_popTypesOnto [] ts.reverse

theorem local_popI32 : Local popI32 := by
  refine (local_popTyped .i32).bind fun v => ?_
  cases v with
  | i32 b => exact local_pure b
  | i64 b => exact local_throw _
  | f32 b => exact local_throw _
  | f64 b => exact local_throw _

theorem local_ofResult (r : Except Fault α) : Local (ofResult r) := by
  cases r with
  | ok a => exact local_pure a
  | error e => exact local_throw e

theorem local_numeric (t : Valtype) (name : String) : Local (numeric t name) := by
  unfold numeric
  split
  · exact local_throw _
  · split
    · exact (local_popTyped _).bind fun v => (local_ofResult _).bind local_push
    · exact (local_popTyped _).bind fun a => (local_ofResult _).bind local_push
    · exact (local_popTyped _).bind fun b => (local_popTyped _).bind fun a =>
        (local_ofResult _).bind local_push
    · exact local_throw _

end WasmEngine.Stack

/-! ## Frames of a call -/

namespace WasmEngine

open Stack Outcome

namespace Frame

/-- The frame with other locals, if it is the frame of a function. -/
def withLocals (locals : List Value) (frame : Frame) : Frame :=
  { frame with
    kind :=
      match frame.kind with
      | .function _ owner => .function locals owner
      | kind => kind }

/-- The number of values that a branch to the frame carries. -/
def labelArity (frame : Frame) : Nat := if frame.isLoop then 0 else frame.arity

/-- The frame so many instructions later. -/
def advance (frame : Frame) (count : Nat) : Frame := { frame with pc := frame.pc + count }

section

variable (locals : List Value) (frame : Frame)

@[simp] theorem withLocals_function : (frame.withLocals locals).function = frame.function := rfl

@[simp] theorem withLocals_isLoop : (frame.withLocals locals).isLoop = frame.isLoop := by
  simp only [isLoop, withLocals]
  cases frame.kind <;> rfl

@[simp] theorem withLocals_code : (frame.withLocals locals).code = frame.code := rfl

@[simp] theorem child_withLocals (step : Step) (arity : Nat) :
    (frame.withLocals locals).child step arity = frame.child step arity := rfl

@[simp] theorem withLocals_child (step : Step) (arity : Nat) :
    (frame.child step arity).withLocals locals = frame.child step arity := by
  cases step <;> rfl

@[simp] theorem advance_code (count : Nat) : (frame.advance count).code = frame.code := rfl

@[simp] theorem advance_labelArity (count : Nat) :
    (frame.advance count).labelArity = frame.labelArity := rfl

@[simp] theorem advance_zero : frame.advance 0 = frame := rfl

@[simp] theorem advance_advance (m n : Nat) :
    (frame.advance m).advance n = frame.advance (m + n) := by
  simp [advance, Nat.add_assoc]

end

/-- The sequence of a construct is found inside the sequence that the construct stands in. -/
theorem follow_append {name : String} {code inner : List Node} {path : List Step} {step : Step}
    (outer : follow name code path = .ok inner) :
    follow name code (path ++ [step]) = follow name inner [step] := by
  induction path generalizing code with
  | nil =>
    cases outer
    rfl
  | cons first path ih =>
    simp only [List.cons_append, follow] at outer ⊢
    split at outer
    · exact ih outer
    · exact ih outer
    · exact ih outer
    · exact ih outer
    · cases outer

end Frame

namespace Structured

/-- The frames of a call, the innermost first: those of constructs, and last the one of a function
with a place among the frames. -/
inductive Call (owner returns place : Nat) : List Frame → Prop
  | function {f locals} (kind : f.kind = .function locals owner) (arity : f.arity = returns)
      (here : f.function = place) : Call owner returns place [f]
  | construct {f frames} (kind : f.kind = .block ∨ f.kind = .loop) (here : f.function = place)
      (around : Call owner returns place frames) : Call owner returns place (f :: frames)

/-- Entries that hold a label for each frame. -/
inductive Labelled : List Frame → List StackEntry → Prop
  | nil {entries} : Labelled [] entries
  | cons {frame frames below vs} (rest : Labelled frames below) :
      Labelled (frame :: frames) (stacked (.label frame.labelArity :: below) vs).entries

variable {σ α β : Type} {owner returns place : Nat} {frames : List Frame}

namespace Call

/-- The innermost frame of a call lies in the function of the call. -/
theorem head_function {f : Frame} (call : Call owner returns place (f :: frames)) :
    f.function = place := by
  cases call with
  | function _ _ here => exact here
  | construct _ here _ => exact here

/-- Moving the innermost frame of a call on leaves the call as it is. -/
theorem advance {f : Frame} (call : Call owner returns place (f :: frames)) (count : Nat) :
    Call owner returns place (f.advance count :: frames) := by
  cases call with
  | function kind arity here => exact .function kind arity here
  | construct kind here around => exact .construct kind here around

/-- A block or a loop holds no locals to replace. -/
theorem withLocals_construct {f : Frame} (kind : f.kind = .block ∨ f.kind = .loop)
    (locals : List Value) : f.withLocals locals = f := by
  obtain ⟨func, path, pc, _, arity, function⟩ := f
  obtain rfl | rfl := kind <;> rfl

/-- The last frame of a call is the one of the function. -/
theorem last (call : Call owner returns place frames) (locals : List Value) :
    ∃ f : Frame, (frames.map (Frame.withLocals locals))[frames.length - 1]? = some f ∧
      f.kind = .function locals owner ∧ ∀ others,
        (frames.map (Frame.withLocals locals)).set (frames.length - 1)
          { f with kind := .function others owner } = frames.map (Frame.withLocals others) := by
  induction call with
  | @function f _ kind _ _ =>
    refine ⟨f.withLocals locals, rfl, ?_, fun others => ?_⟩
    · simp [Frame.withLocals, kind]
    · simp [Frame.withLocals, kind]
  | @construct f frames kind _ around ih =>
    obtain ⟨g, isLast, isFunction, change⟩ := ih
    obtain ⟨count, length⟩ : ∃ count, frames.length = count + 1 := by
      cases around <;> exact ⟨_, rfl⟩
    simp only [length, Nat.add_sub_cancel] at isLast change
    refine ⟨g, ?_, isFunction, fun others => ?_⟩
    · simpa [length] using isLast
    · simp [length, withLocals_construct kind, change others]

/-- The function of a call keeps its place and its results. -/
theorem last_eq (call : Call owner returns place frames) :
    ∃ f : Frame, frames[frames.length - 1]? = some f ∧ f.isLoop = false ∧ f.arity = returns := by
  induction call with
  | @function f _ kind arity _ => exact ⟨f, rfl, by simp [Frame.isLoop, kind], arity⟩
  | @construct f frames kind _ around ih =>
    obtain ⟨g, isLast, rest⟩ := ih
    obtain ⟨count, length⟩ : ∃ count, frames.length = count + 1 := by
      cases around <;> exact ⟨_, rfl⟩
    simp only [length, Nat.add_sub_cancel] at isLast
    exact ⟨g, by simpa [length] using isLast, rest⟩

end Call

/-- Operands on top do not hide a label. -/
@[simp] theorem findLabel?_stacked (depth : Nat) (below : List StackEntry) (vs : List Value) :
    findLabel? depth (stacked below vs).entries = findLabel? depth below := by
  have under : ∀ ws : List Value,
      findLabel? depth (ws.map StackEntry.value ++ below) = findLabel? depth below := by
    intro ws
    induction ws with
    | nil => rfl
    | cons w ws ih => cases depth <;> exact ih
  simpa [stacked, List.map_reverse] using under vs.reverse

/-- Each frame has its label on the stack, at the depth of the frame. -/
theorem Labelled.findLabel? {entries : List StackEntry} (labelled : Labelled frames entries)
    {depth : Nat} {frame : Frame} (at_ : frames[depth]? = some frame) :
    ∃ rest, Stack.findLabel? depth entries = some (frame.labelArity, rest) := by
  induction labelled generalizing depth with
  | nil => cases at_
  | @cons f frames below vs rest ih =>
    rw [findLabel?_stacked]
    cases depth with
    | zero =>
      cases at_
      exact ⟨below, rfl⟩
    | succ depth => exact ih at_

/-! ## Sites -/

/-- A place in a call. -/
structure Site (scope : Scope) where
  /-- The innermost frame. -/
  frame : Frame
  /-- The other frames of the call. -/
  opened : List Frame
  /-- The frames of the other calls. -/
  callers : List Frame
  /-- The entries below the innermost label. -/
  below : List StackEntry
  call : Call scope.owner scope.returns callers.length (frame :: opened)
  labelled : Labelled opened below
  labels : scope.labels = (frame :: opened).map Frame.labelArity
  depth : scope.depth = opened.length + 1 + callers.length

namespace Site

variable {scope : Scope} (site : Site scope)

/-- The state of the machine at a site. -/
def state (a : Activation σ) : Execution σ where
  store := a.store
  stack := stacked (.label site.frame.labelArity :: site.below) a.operands
  frames := (site.frame :: site.opened).map (Frame.withLocals a.locals) ++ site.callers
  world := a.world

/-- The state of the machine after a branch with values. -/
def landing (depth : Nat) (vs : List Value) (a : Activation σ) : Option (Execution σ) :=
  match (site.frame :: site.opened)[depth]?,
    findLabel? depth (.label site.frame.labelArity :: site.below) with
  | some target, some (arity, rest) =>
    let around := (site.frame :: site.opened).drop (depth + 1)
    if target.isLoop then
      some ⟨a.store, stacked (.label arity :: rest) vs,
        ({ target with pc := 0 } :: around).map (Frame.withLocals a.locals) ++ site.callers,
        a.world⟩
    else
      some ⟨a.store, stacked rest vs, around.map (Frame.withLocals a.locals) ++ site.callers, a.world⟩
  | _, _ => none

/-- The site so many instructions later. -/
def advance (count : Nat) : Site scope :=
  { site with
    frame := site.frame.advance count
    call := site.call.advance count
    labels := site.labels }

@[simp] theorem advance_zero : site.advance 0 = site := rfl

@[simp] theorem advance_advance (m n : Nat) :
    (site.advance m).advance n = site.advance (m + n) := by
  simp [advance]

@[simp] theorem landing_advance (count depth : Nat) (vs : List Value) (a : Activation σ) :
    (site.advance count).landing depth vs a = site.landing depth vs a := by
  cases depth with
  | zero => rfl
  | succ depth => rfl

/-- The site in a construct that is entered with some operands. -/
def inside (step : Step) (arity : Nat) (operands : List Value) :
    Site (scope.inside (site.frame.child step arity).labelArity) where
  frame := site.frame.child step arity
  opened := site.frame :: site.opened
  callers := site.callers
  below := (stacked (.label site.frame.labelArity :: site.below) operands).entries
  call := .construct (by cases step <;> simp [Frame.child]) site.call.head_function site.call
  labelled := .cons site.labelled
  labels := by simp [Scope.inside, site.labels]
  depth := by simp [Scope.inside, site.depth]; omega

/-- A branch out of a construct lands where the branch to one label less does. -/
theorem landing_inside (step : Step) (arity : Nat) (operands : List Value) (depth : Nat)
    (vs : List Value) (a : Activation σ) :
    (site.inside step arity operands).landing (depth + 1) vs a = site.landing depth vs a := by
  simp [landing, inside, findLabel?]

/-- The site at the start of a function that is called over some frames and entries. -/
def callee (f : Func) (owner : Nat) (locals : List Value) (arity : Nat) (callers : List Frame)
    (below : List StackEntry) : Site ⟨owner, arity, [arity], callers.length + 1⟩ where
  frame := .call f owner locals arity callers.length
  opened := []
  callers := callers
  below := below
  call := .function rfl rfl rfl
  labelled := .nil
  labels := rfl
  depth := by simp; omega

/-- There is a frame and a label for each branch. -/
theorem exists_landing {depth arity : Nat} (label : scope.labels[depth]? = some arity) :
    ∃ target rest, (site.frame :: site.opened)[depth]? = some target ∧
      findLabel? depth (.label site.frame.labelArity :: site.below) = some (arity, rest) ∧
      target.labelArity = arity := by
  rw [site.labels, List.getElem?_map, Option.map_eq_some_iff] at label
  obtain ⟨target, at_, rfl⟩ := label
  have labelled : Labelled (site.frame :: site.opened)
      (stacked (.label site.frame.labelArity :: site.below) []).entries := .cons site.labelled
  obtain ⟨rest, found⟩ := labelled.findLabel? at_
  exact ⟨target, rest, at_, found, rfl⟩

end Site

end Structured

end WasmEngine
