import WasmEngine.Proofs.Machine.Lifting

/-!
# Runs that simulate evaluations

The simulation goes along the fuel of an evaluation.  Where the evaluation comes to an end, the
machine comes to the state where that end leads; where it ends with a fault, so does the machine;
and where it runs out of fuel, the machine has taken at least as many steps.
-/

namespace WasmEngine.Structured

open Stack Outcome

variable {σ α β S T : Type} {env : Environment σ} {scope : Scope}

/-! ## Runs that begin with a part of an instruction -/

/-- A part of a run, and then so many steps. -/
def runFrom (env : Environment σ) (m : Exec σ Unit) (x : Execution σ) (fuel : Nat) :
    EStateM.Result Halt (Execution σ) Unit :=
  (m >>= fun _ => Exec.run env fuel) x

/-- A run out of fuel. -/
def Exhausted (r : EStateM.Result Halt (Execution σ) Unit) : Prop := ∃ y, r = .error .outOfFuel y

/-- What a run does that begins with `m` in the state `x`, if an evaluation has a result: it comes
to a state that stands for the result, or ends with the same fault, store and world, or takes so
many steps. -/
def Simulates (env : Environment σ) (fuel : Nat) (m : Exec σ Unit) (x : Execution σ)
    (view : S → Store × σ) (lands : α → S → Execution σ → Prop) :
    EStateM.Result Halt S α → Prop
  | .ok v s => ∃ y, lands v s y ∧ ∃ steps, ∀ k, runFrom env m x (steps + k) = Exec.run env k y
  | .error (.fault e) s => ∃ steps y, runFrom env m x steps = .error (.fault e) y ∧
      (y.store, y.world) = view s
  | .error .outOfFuel _ => Exhausted (runFrom env m x fuel)

/-- The store and the world of an evaluation. -/
def Activation.view (a : Activation σ) : Store × σ := (a.store, a.world)

/-- A run with no frames is at its end. -/
theorem run_nil {x : Execution σ} (fuel : Nat) (frames : x.frames = []) :
    Exec.run env fuel x = .ok () x := by
  obtain ⟨store, stack, _, world⟩ := x
  cases frames
  rw [Exec.run]
  rfl

/-- A run with frames and no fuel is out of fuel. -/
theorem run_zero {x : Execution σ} {frame : Frame} {outer : List Frame}
    (frames : x.frames = frame :: outer) : Exec.run env 0 x = .error .outOfFuel x := by
  obtain ⟨store, stack, _, world⟩ := x
  cases frames
  rw [Exec.run]
  rfl

/-- A run with frames and fuel takes a step. -/
theorem run_succ {x : Execution σ} {frame : Frame} {outer : List Frame} (fuel : Nat)
    (frames : x.frames = frame :: outer) :
    Exec.run env (fuel + 1) x = runFrom env (Exec.step env frame outer) x fuel := by
  obtain ⟨store, stack, _, world⟩ := x
  cases frames
  rw [Exec.run]
  rfl

/-- A run that has ended stays the same with more fuel. -/
theorem run_stable {fuel : Nat} {x : Execution σ} (ended : ¬ Exhausted (Exec.run env fuel x)) :
    Exec.run env (fuel + 1) x = Exec.run env fuel x := by
  induction fuel generalizing x with
  | zero =>
    cases frames : x.frames with
    | nil => rw [run_nil _ frames, run_nil _ frames]
    | cons frame outer => exact absurd ⟨x, run_zero frames⟩ ended
  | succ fuel ih =>
    cases frames : x.frames with
    | nil => rw [run_nil _ frames, run_nil _ frames]
    | cons frame outer =>
      rw [run_succ _ frames, runFrom] at ended
      rw [run_succ _ frames, run_succ _ frames, runFrom, runFrom]
      cases first : Exec.step env frame outer x with
      | ok _ y =>
        rw [bind_ok first] at ended
        rw [bind_ok first, bind_ok first]
        exact ih ended
      | error e y => rw [bind_error first, bind_error first]

/-- A run that ended is the same with more fuel. -/
theorem runFrom_stable {fuel more : Nat} {m : Exec σ Unit} {x : Execution σ} (le : fuel ≤ more)
    (ended : ¬ Exhausted (runFrom env m x fuel)) : runFrom env m x more = runFrom env m x fuel := by
  unfold runFrom at ended ⊢
  cases first : m x with
  | ok _ y =>
    rw [bind_ok first] at ended
    rw [bind_ok first, bind_ok first]
    induction le with
    | refl => rfl
    | step _ ih => exact (run_stable (ih ▸ ended)).trans ih
  | error e y => rw [bind_error first, bind_error first]

/-- A run that is out of fuel is so with less. -/
theorem exhausted_runFrom {fuel more : Nat} {m : Exec σ Unit} {x : Execution σ} (le : fuel ≤ more)
    (exhausted : Exhausted (runFrom env m x more)) : Exhausted (runFrom env m x fuel) := by
  by_contra ended
  rw [runFrom_stable le ended] at exhausted
  exact ended exhausted

namespace Simulates

variable {fuel : Nat} {m : Exec σ Unit} {x : Execution σ} {view : S → Store × σ}
  {lands : α → S → Execution σ → Prop}

/-- What fuel simulates, less fuel does, up to running out. -/
theorem mono {r : EStateM.Result Halt S α} {less : Nat}
    (simulates : Simulates env fuel m x view lands r) (le : less ≤ fuel) :
    Simulates env less m x view lands r := by
  match r with
  | .ok _ _ => exact simulates
  | .error (.fault _) _ => exact simulates
  | .error .outOfFuel _ => exact exhausted_runFrom le simulates

/-- The step of an instruction counts against the fuel. -/
theorem step {r : EStateM.Result Halt S α} {frame : Frame} {outer : List Frame}
    (frames : x.frames = frame :: outer)
    (simulates : Simulates env fuel (Exec.step env frame outer) x view lands r) :
    Simulates env (fuel + 1) (pure ()) x view lands r := by
  have shift : ∀ k, Exec.run env (k + 1) x = runFrom env (Exec.step env frame outer) x k :=
    fun k => run_succ k frames
  match r, simulates with
  | .ok v s, ⟨y, there, steps, runs⟩ =>
    refine ⟨y, there, steps + 1, fun k => ?_⟩
    rw [← runs k, ← shift, Nat.add_right_comm]
    rfl
  | .error (.fault e) s, ⟨steps, y, ends, same⟩ =>
    exact ⟨steps + 1, y, (shift steps).trans ends, same⟩
  | .error .outOfFuel s, ⟨y, ends⟩ => exact ⟨y, (shift fuel).trans ends⟩

/-- Steps that were taken before count against the fuel. -/
theorem after {r : EStateM.Result Halt S α} {y : Execution σ} {steps : Nat}
    (runs : ∀ k, runFrom env m x (steps + 1 + k) = Exec.run env k y)
    (simulates : Simulates env fuel (pure ()) y view lands r) :
    Simulates env (fuel + 1) m x view lands r := by
  match r, simulates with
  | .ok v s, ⟨z, there, more, goes⟩ =>
    exact ⟨z, there, steps + 1 + more, fun k => by rw [Nat.add_assoc _ more, runs]; exact goes k⟩
  | .error (.fault e) s, ⟨more, z, ends, same⟩ =>
    exact ⟨steps + 1 + more, z, (runs more).trans ends, same⟩
  | .error .outOfFuel s, ⟨z, ends⟩ =>
    exact exhausted_runFrom (by omega) ⟨z, (runs fuel).trans ends⟩

/-- A run may be cut where it stands for the result of the first part. -/
theorem bind {U : Type} {view' : U → Store × σ} {g : EStateM.Result Halt S α}
    {lands' : β → U → Execution σ → Prop} {r : EStateM.Result Halt U β}
    (first : Simulates env fuel m x view lands g)
    (failed : ∀ e s, g = .error e s → ∃ s', r = .error e s' ∧ view' s' = view s)
    (rest : ∀ v s y, g = .ok v s → lands v s y → Simulates env fuel (pure ()) y view' lands' r) :
    Simulates env fuel m x view' lands' r := by
  match g, first with
  | .ok v s, ⟨y, there, steps, runs⟩ =>
    have next := rest v s y rfl there
    match r, next with
    | .ok w t, ⟨z, onwards, more, goes⟩ =>
      exact ⟨z, onwards, steps + more, fun k => by rw [Nat.add_assoc, runs]; exact goes k⟩
    | .error (.fault e) t, ⟨more, z, ends, same⟩ =>
      exact ⟨steps + more, z, (runs more).trans ends, same⟩
    | .error .outOfFuel t, ⟨z, ends⟩ =>
      exact exhausted_runFrom (Nat.le_add_left fuel steps) ⟨z, (runs fuel).trans ends⟩
  | .error (.fault e) s, ⟨steps, y, ends, same⟩ =>
    obtain ⟨s', rfl, here⟩ := failed _ s rfl
    exact ⟨steps, y, ends, same.trans here.symm⟩
  | .error .outOfFuel s, ends =>
    obtain ⟨s', rfl, -⟩ := failed _ s rfl
    exact ends

end Simulates

/-- What a part of an instruction does does not depend on how it is written. -/
theorem simulates_congr {fuel : Nat} {m m' : Exec σ Unit} {x x' : Execution σ}
    {view : S → Store × σ} {lands : α → S → Execution σ → Prop} {r : EStateM.Result Halt S α}
    (same : m x = m' x') (simulates : Simulates env fuel m' x' view lands r) :
    Simulates env fuel m x view lands r := by
  have same : ∀ k, runFrom env m x k = runFrom env m' x' k := fun k => by
    simp only [runFrom, bind, EStateM.bind, same]
  match r, simulates with
  | .ok v s, ⟨y, there, steps, runs⟩ => exact ⟨y, there, steps, fun k => (same _).trans (runs k)⟩
  | .error (.fault e) s, ⟨steps, y, ends, view⟩ => exact ⟨steps, y, (same _).trans ends, view⟩
  | .error .outOfFuel s, ⟨y, ends⟩ => exact ⟨y, (same _).trans ends⟩

theorem simulates_then {fuel : Nat} {m : Exec σ Unit} {x y : Execution σ} {view : S → Store × σ}
    {lands : α → S → Execution σ → Prop} {r : EStateM.Result Halt S α} (first : m x = .ok () y)
    (rest : Simulates env fuel (pure ()) y view lands r) : Simulates env fuel m x view lands r :=
  simulates_congr first rest

theorem simulates_error {fuel : Nat} {m : Exec σ Unit} {x y : Execution σ} {view : S → Store × σ}
    {lands : α → S → Execution σ → Prop} {e : Halt} {s : S} (ends : m x = .error e y)
    (same : (y.store, y.world) = view s) : Simulates env fuel m x view lands (.error e s) := by
  have runs : ∀ k, runFrom env m x k = .error e y := fun k => bind_error ends
  cases e with
  | fault e => exact ⟨0, y, runs 0, same⟩
  | outOfFuel => exact ⟨y, runs fuel⟩

theorem simulates_ok {fuel : Nat} {m : Exec σ Unit} {x y : Execution σ} {view : S → Store × σ}
    {lands : α → S → Execution σ → Prop} {v : α} {s : S} (ends : m x = .ok () y)
    (there : lands v s y) : Simulates env fuel m x view lands (.ok v s) :=
  ⟨y, there, 0, fun k => by rw [Nat.zero_add]; exact bind_ok ends⟩

/-! ## Instructions -/

namespace Site

/-- Where a sequence leads that completes in some way. -/
def Lands (site : Site scope) : Completion → Activation σ → Execution σ → Prop
  | .normal, a, y => y = site.state a
  | .branch depth vs, a, y =>
    scope.labels[depth]? = some vs.length ∧ site.landing depth vs a = some y
  | .ret vs, a, y => vs.length = scope.returns ∧ site.landing site.opened.length vs a = some y

end Site

variable {site : Site scope} {a : Activation σ} {fuel : Nat}

/-- An instruction may begin with what lifts. -/
theorem simulates_lift {m : Exec σ α} {m' : Eval σ α} {f : α → Exec σ Unit} {g : α → Eval σ β}
    {lands : β → Activation σ → Execution σ → Prop} (lifts : Lifts site m m')
    (rest : ∀ v b, Simulates env fuel (f v) (site.state b) Activation.view lands (g v b)) :
    Simulates env fuel (m >>= f) (site.state a) Activation.view lands ((m' >>= g) a) := by
  have here := lifts a
  cases run : m' a with
  | ok v b =>
    rw [run] at here
    rw [bind_ok run]
    exact simulates_congr (bind_ok here) (rest v b)
  | error e b =>
    rw [run] at here
    rw [bind_error run]
    exact simulates_error (bind_error here) rfl

theorem simulates_get {f : Execution σ → Exec σ Unit} {g : Activation σ → Eval σ β}
    {lands : β → Activation σ → Execution σ → Prop}
    (rest : Simulates env fuel (f (site.state a)) (site.state a) Activation.view lands (g a a)) :
    Simulates env fuel (MonadStateOf.get >>= f) (site.state a) Activation.view lands
      ((MonadStateOf.get >>= g) a) :=
  simulates_congr rfl rest

/-- An instruction that goes on to the next one. -/
theorem simulates_normal {m : Exec σ Unit} {m' : Eval σ Unit}
    (simulates : Simulates env fuel m (site.state a) Activation.view
      (fun _ b y => y = site.state b) (m' a)) :
    Simulates env fuel m (site.state a) Activation.view site.Lands
      ((do m'; return Completion.normal) a) := by
  refine simulates.bind (fun e s failed => ⟨s, bind_error failed, rfl⟩) fun v b y done there => ?_
  rw [bind_ok done]
  exact simulates_ok rfl there

/-- An instruction that opens nothing and leaves nothing. -/
theorem simulates_of_lifts {m : Exec σ Unit} {m' : Eval σ Unit} (lifts : Lifts site m m') :
    Simulates env fuel m (site.state a) Activation.view (fun _ b y => y = site.state b) (m' a) := by
  have here := lifts a
  cases run : m' a with
  | ok v b =>
    rw [run] at here
    exact simulates_ok here rfl
  | error e b =>
    rw [run] at here
    exact simulates_error here rfl

end WasmEngine.Structured
