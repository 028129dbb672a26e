import WasmEngine.Proofs.Machine.CallFrames

/-!
# Instructions in the frames of a call

Every instruction that opens nothing and leaves nothing lifts to all sites: the machine, which keeps
the locals in a frame and the operands above a label, does what the structured evaluation does.
-/

namespace WasmEngine.Structured

open Stack Outcome

variable {σ α β : Type} {scope : Scope}

/-- The machine does at a site what an evaluation does. -/
def Lifts (site : Site scope) (m : Exec σ α) (m' : Eval σ α) : Prop :=
  ∀ a, m (site.state a) = onState site.state (m' a)

/-! ## Parts of instructions -/

section

variable {site : Site scope}

/-- Steps in sequence lift when both parts do. -/
theorem Lifts.bind {m : Exec σ α} {m' : Eval σ α} {f : α → Exec σ β} {f' : α → Eval σ β}
    (first : Lifts site m m') (rest : ∀ v, Lifts site (f v) (f' v)) :
    Lifts site (m >>= f) (m' >>= f') := by
  intro a
  have here := first a
  cases run : m' a with
  | ok v b =>
    rw [run] at here
    rw [bind_ok here, bind_ok run]
    exact rest v b
  | error e b =>
    rw [run] at here
    rw [bind_error here, bind_error run]
    rfl

/-- What depends on the state may be looked at in each state on its own. -/
theorem Lifts.get {f : Execution σ → Exec σ β} {f' : Activation σ → Eval σ β}
    (rest : ∀ a, Lifts site (f (site.state a)) (f' a)) :
    Lifts site (MonadStateOf.get >>= f) (MonadStateOf.get >>= f') :=
  fun a => rest a a

theorem lifts_pure (v : α) : Lifts site (pure v : Exec σ α) (pure v) := fun _ => rfl

theorem lifts_fail (e : Fault) : Lifts site (Exec.fail e : Exec σ α) (fail e) := fun _ => rfl

theorem lifts_ofResult (r : Except Fault α) :
    Lifts site (Exec.ofResult r : Exec σ α) (ofResult r) := by
  cases r with
  | ok v => exact lifts_pure v
  | error e => exact lifts_fail e

/-- The values of a stack of operands are those operands. -/
theorem values_stacked (vs : List Value) : (stacked [] vs).values = vs := by
  simp [stacked, Stack.values, List.filterMap_map]

theorem lifts_onStack {f : StackM α} (isLocal : Local f) :
    Lifts site (Exec.onStack f : Exec σ α) (onOperands f) := by
  intro a
  obtain ⟨r, runs⟩ := isLocal a.operands
  have atSite := runs (.label site.frame.labelArity :: site.below) (closed_label _ _)
  have alone : f (stackOf a.operands) = onState (stacked []) r := by
    rw [← runs [] closed_nil]
    simp [stackOf, stacked]
  simp only [Exec.onStack, Site.state, onOperands, atSite, alone]
  cases r <;> simp [values_stacked, Site.state]

theorem lifts_onStore (f : StoreM α) : Lifts site (Exec.onStore f : Exec σ α) (onStore f) := by
  intro a
  simp only [Exec.onStore, Site.state, onStore]
  cases f a.store <;> rfl

/-- The function frame of a site is the one of its activation, at the depth of the opened constructs. -/
theorem functionFrame_eq (site : Site scope) (a : Activation σ) :
    ∃ f : Frame, f.kind = .function a.locals scope.owner ∧
      Exec.functionFrame (site.state a) = .ok (f, site.opened.length) (site.state a) ∧
      ∀ others, (site.state a).frames.set site.opened.length
        { f with kind := .function others scope.owner } =
          (site.state { a with locals := others }).frames := by
  obtain ⟨f, isLast, kind, change⟩ := site.call.last a.locals
  simp only [List.length_cons, Nat.add_sub_cancel] at isLast change
  have here : (site.state a).frames[site.opened.length]? = some f := by
    rw [Site.state, List.getElem?_append_left (by simp), isLast]
  have inside : (site.state a).frames.length - 1 - (site.frame.withLocals a.locals).function =
      site.opened.length := by
    simp [Site.state, site.call.head_function]
  refine ⟨f, kind, ?_, fun others => ?_⟩
  · have top : Exec.top (site.state a) = .ok (site.frame.withLocals a.locals) (site.state a) := rfl
    have found : Exec.functionFrame (site.state a) = _ := (bind_ok rfl).trans (bind_ok top)
    rw [found, inside, here]
    rfl
  · simp only [Site.state]
    rw [List.set_append_left _ _ (by simp), change others]

/-- The activation of a lifted state has the locals of the activation. -/
theorem activation_eq (a : Activation σ) :
    Exec.activation (site.state a) = .ok (a.locals, scope.owner) (site.state a) := by
  obtain ⟨f, kind, found, -⟩ := functionFrame_eq site a
  rw [Exec.activation, bind_ok found, kind]
  rfl

/-- Reading the locals through the frames lifts reading them directly. -/
theorem Lifts.activation {f : List Value × Nat → Exec σ β} {f' : Activation σ → Eval σ β}
    (rest : ∀ a, Lifts site (f (a.locals, scope.owner)) (f' a)) :
    Lifts site (Exec.activation >>= f) (MonadStateOf.get >>= f') := by
  intro a
  rw [bind_ok (activation_eq a)]
  exact rest a a

theorem lifts_currentInstance :
    Lifts site (Exec.currentInstance : Exec σ ModuleInstance) (currentInstance scope) := by
  intro a
  rw [Exec.currentInstance, bind_ok (activation_eq a)]
  exact lifts_ofResult _ a

/-- Setting the locals of a lifted state sets those of the activation. -/
theorem setLocals_eq (a : Activation σ) (locals : List Value) :
    Exec.setLocals locals (site.state a) = .ok () (site.state { a with locals := locals }) := by
  obtain ⟨f, kind, found, change⟩ := functionFrame_eq site a
  refine (bind_ok found).trans ((bind_ok (activation_eq a)).trans ?_)
  exact congrArg
    (fun frames => EStateM.Result.ok () ({ site.state a with frames := frames } : Execution σ))
    (change locals)

/-- Assigning a local of the innermost function. -/
theorem lifts_setLocal (i : Nat) (v : Value) :
    Lifts site (do
      let locals := (← Exec.activation).1
      if i < locals.length then Exec.setLocals (locals.set i v) else Exec.fail (.unknownLocal i))
      (setLocal i v : Eval σ Unit) := by
  refine Lifts.activation fun a => ?_
  by_cases known : i < a.locals.length
  · simp only [if_pos known]
    exact fun b => setLocals_eq b _
  · simp only [if_neg known]
    exact lifts_fail _

theorem lifts_indexArg (name : String) (args : List Node) (position : Nat) :
    Lifts site (Exec.indexArg name args position : Exec σ Nat) (indexArg name args position) := by
  unfold Exec.indexArg indexArg
  cases args[position]? with
  | none => exact lifts_fail _
  | some arg => cases arg <;> first | exact lifts_pure _ | exact lifts_fail _

end

/-! ## Instructions -/

section

variable {site : Site scope}

theorem lifts_load (t : Valtype) (id : String) (memArg : Option MemArg) :
    Lifts site (Exec.load t id memArg : Exec σ Unit) (load scope t id memArg) :=
  (lifts_onStack local_popI32).bind fun _ =>
    lifts_currentInstance.bind fun _ => (lifts_ofResult _).bind fun _ =>
      .get fun _ => (lifts_ofResult _).bind fun _ => (lifts_ofResult _).bind fun v =>
        lifts_onStack (local_push v)

theorem lifts_store (t : Valtype) (id : String) (memArg : Option MemArg) :
    Lifts site (Exec.store t id memArg : Exec σ Unit) (store scope t id memArg) := by
  refine (lifts_onStack (local_popTyped t)).bind fun v =>
    (lifts_onStack local_popI32).bind fun base => lifts_currentInstance.bind fun _ =>
      (lifts_ofResult _).bind fun address => .get fun _ => (lifts_ofResult _).bind fun _ => ?_
  cases storeWidth? t id with
  | some width => exact lifts_onStore _
  | none => exact lifts_fail _

theorem lifts_onType (t : Valtype) (id : String) (args : List Node) (memArg : Option MemArg) :
    Lifts site (Exec.onType t id args memArg : Exec σ Unit) (onType scope t id args memArg) := by
  unfold Exec.onType onType
  split
  · cases args.head? with
    | some literal => exact (lifts_ofResult _).bind fun v => lifts_onStack (local_push v)
    | none => exact lifts_fail _
  · split
    · exact lifts_load t id memArg
    · split
      · exact lifts_store t id memArg
      · exact lifts_onStack (local_numeric t id)

/-- The instructions that may leave a sequence. -/
def leaving : List String := ["br", "br_if", "br_table", "return"]

theorem lifts_plain {id : String} (stays : id ∉ leaving) (args : List Node) :
    Lifts site (Exec.plain id args : Exec σ Unit) (simple scope id args) := by
  unfold Exec.plain
  split
  · exact lifts_pure ()
  · exact lifts_pure ()
  · exact lifts_fail _
  · exact (lifts_onStack local_pop).bind fun _ => lifts_pure ()
  · exact (lifts_onStack local_popI32).bind fun _ => (lifts_onStack local_pop).bind fun _ =>
      (lifts_onStack local_pop).bind fun _ => lifts_onStack (local_push _)
  · refine (lifts_indexArg _ _ _).bind fun i => .activation fun a => ?_
    cases a.locals[i]? with
    | some v => exact lifts_onStack (local_push v)
    | none => exact lifts_fail _
  · exact (lifts_indexArg _ _ _).bind fun i => (lifts_onStack local_pop).bind fun v =>
      lifts_setLocal i v
  · exact (lifts_indexArg _ _ _).bind fun i => (lifts_onStack local_pop).bind fun v =>
      (lifts_onStack (local_push v)).bind fun _ => lifts_setLocal i v
  · exact lifts_currentInstance.bind fun _ => (lifts_indexArg _ _ _).bind fun _ =>
      (lifts_ofResult _).bind fun _ => .get fun _ => (lifts_ofResult _).bind fun _ =>
        lifts_onStack (local_push _)
  · exact lifts_currentInstance.bind fun _ => (lifts_indexArg _ _ _).bind fun _ =>
      (lifts_ofResult _).bind fun _ => (lifts_onStack local_pop).bind fun _ => lifts_onStore _
  · exact absurd stays (by decide)
  · exact absurd stays (by decide)
  · exact absurd stays (by decide)
  · exact absurd stays (by decide)
  · exact lifts_currentInstance.bind fun _ => (lifts_ofResult _).bind fun _ =>
      .get fun _ => (lifts_ofResult _).bind fun _ => lifts_onStack (local_push _)
  · exact lifts_currentInstance.bind fun _ => (lifts_ofResult _).bind fun _ =>
      (lifts_onStack local_popI32).bind fun _ => (lifts_onStore _).bind fun _ =>
        lifts_onStack (local_push _)
  · simp only [simple]
    exact lifts_fail _

end

end WasmEngine.Structured
