import Mathlib.Data.List.Basic

/-!
# Outcomes of computations that may fail

When a computation put together from parts succeeds, all its parts do.  A computation on a state may
run on a larger state, which then changes in the part that is the state.  What a computation does to its
state, whether it succeeds or fails, is put together from what its parts do (`Respects.bind`).  Two
computations that go along with each other part by part end alike (`Mirrors.bind`).
-/

namespace WasmEngine.Outcome

section Except

variable {ε α β : Type}

/-- A sequence succeeds when both parts do. -/
theorem bind_eq_ok_iff {x : Except ε α} {f : α → Except ε β} {b : β} :
    (x >>= f) = .ok b ↔ ∃ a, x = .ok a ∧ f a = .ok b := by
  cases x with
  | ok a => simp [bind, Except.bind]
  | error e => simp [bind, Except.bind]

/-- A sequence fails when one of its parts does, and with the error of that part. -/
theorem bind_eq_error_iff {x : Except ε α} {f : α → Except ε β} {e : ε} :
    (x >>= f) = .error e ↔ x = .error e ∨ ∃ a, x = .ok a ∧ f a = .error e := by
  cases x with
  | ok a => simp [bind, Except.bind]
  | error e' => simp [bind, Except.bind]

@[simp] theorem pure_eq_ok_iff {a b : α} : (pure a : Except ε α) = .ok b ↔ a = b := by
  simp [pure, Except.pure]

@[simp] theorem throw_eq_ok_iff {e : ε} {b : α} : (throw e : Except ε α) = .ok b ↔ False := by
  simp [throw, throwThe, MonadExceptOf.throw]

/-- Renaming errors does not change what succeeds. -/
theorem mapError_eq_ok_iff {δ : Type} {x : Except ε α} {f : ε → δ} {a : α} :
    x.mapError f = .ok a ↔ x = .ok a := by
  cases x <;> simp [Except.mapError]

/-- A computation succeeds just if something holds, and then has a given result. -/
def OkIff (x : Except ε α) (P : Prop) (a : α) : Prop := ∀ b, x = .ok b ↔ P ∧ b = a

/-- What always succeeds does so under no condition. -/
theorem okIff_pure (a : α) : OkIff (pure a : Except ε α) True a := fun b => by
  rw [pure_eq_ok_iff, true_and, eq_comm]

/-- What fails is decided by a condition that never holds. -/
theorem okIff_error {e : ε} {P : Prop} (never : ¬P) (a : α) : OkIff (.error e : Except ε α) P a := fun _ =>
  ⟨nofun, fun both => absurd both.1 never⟩

/-- The condition of an outcome may be replaced by an equivalent one. -/
theorem OkIff.congr {x : Except ε α} {P Q : Prop} {a : α} (okIff : OkIff x P a) (same : P ↔ Q) : OkIff x Q a :=
  fun b => (okIff b).trans (and_congr_left fun _ => same)

/-- Two steps in a row succeed under the conditions of both. -/
theorem OkIff.bind {x : Except ε α} {f : α → Except ε β} {P Q : Prop} {a : α} {b : β} (first : OkIff x P a)
    (rest : OkIff (f a) Q b) : OkIff (x >>= f) (P ∧ Q) b := by
  intro c
  rw [bind_eq_ok_iff, and_assoc]
  constructor
  · rintro ⟨a', done, next⟩
    obtain ⟨holds, rfl⟩ := (first a').1 done
    exact ⟨holds, (rest c).1 next⟩
  · rintro ⟨holds, next⟩
    exact ⟨a, (first a).2 ⟨holds, rfl⟩, (rest c).2 next⟩

/-- A computation whose result is put to use. -/
theorem OkIff.map {x : Except ε α} {P : Prop} {a : α} (okIff : OkIff x P a) (f : α → β) :
    OkIff (x >>= fun a => pure (f a)) P (f a) :=
  (okIff.bind (okIff_pure (f a))).congr (iff_of_eq (and_true P))

/-- A step for each element succeeds under the conditions of all. -/
theorem okIff_mapM {f : α → Except ε β} {P : α → Prop} {g : α → β} {as : List α}
    (each : ∀ a ∈ as, OkIff (f a) (P a) (g a)) : OkIff (as.mapM f) (∀ a ∈ as, P a) (as.map g) := by
  induction as with
  | nil => exact (okIff_pure []).congr (by simp)
  | cons a as ih =>
    have here := each a List.mem_cons_self
    have others := ih fun b inside => each b (List.mem_cons_of_mem a inside)
    rw [List.mapM_cons]
    exact (here.bind (others.map _)).congr List.forall_mem_cons.symm

/-- A traversal of items that each come out as they are. -/
theorem mapM_map_fixed {f : β → Except ε β} {g : α → β} {as : List α} (each : ∀ a ∈ as, f (g a) = .ok (g a)) :
    (as.map g).mapM f = .ok (as.map g) := by
  induction as with
  | nil => rfl
  | cons a as ih =>
    rw [List.map_cons, List.mapM_cons, each a List.mem_cons_self,
      ih fun b inside => each b (List.mem_cons_of_mem a inside)]
    rfl

/-- Results are taken apart just if none of them is a failure. -/
theorem mapM_id_eq_ok_iff {rs : List (Except ε α)} {as : List α} : rs.mapM id = .ok as ↔ rs = as.map .ok := by
  constructor
  · intro all
    induction rs generalizing as with
    | nil =>
      cases all
      rfl
    | cons r rs ih =>
      rw [List.mapM_cons] at all
      obtain ⟨a, here, all⟩ := bind_eq_ok_iff.1 all
      obtain ⟨as', there, all⟩ := bind_eq_ok_iff.1 all
      cases all
      rw [ih there, show r = .ok a from here, List.map_cons]
  · rintro rfl
    induction as with
    | nil => rfl
    | cons a as ih =>
      rw [List.map_cons, List.mapM_cons]
      exact bind_eq_ok_iff.2 ⟨a, rfl, bind_eq_ok_iff.2 ⟨as, ih, rfl⟩⟩

/-- The failure of results in a row is that of one of them. -/
theorem mem_of_mapM_id_eq_error {rs : List (Except ε α)} {e : ε} (fails : rs.mapM id = .error e) : .error e ∈ rs := by
  induction rs with
  | nil => cases fails
  | cons r rs ih =>
    rw [List.mapM_cons] at fails
    obtain here | ⟨a, -, fails⟩ := bind_eq_error_iff.1 fails
    · exact List.mem_cons.2 (.inl here.symm)
    · obtain later | ⟨as, -, fails⟩ := bind_eq_error_iff.1 fails
      · exact List.mem_cons_of_mem r (ih later)
      · cases fails

/-- A computation succeeds just if what it depends on holds. -/
theorem OkIff.exists_iff {x : Except ε α} {P : Prop} {a : α} (okIff : OkIff x P a) : (∃ b, x = .ok b) ↔ P :=
  ⟨fun ⟨b, done⟩ => ((okIff b).1 done).1, fun holds => ⟨a, (okIff a).2 ⟨holds, rfl⟩⟩⟩

end Except

section State

variable {ε σ τ α β : Type}

/-- A result with another view of its state. -/
def onState (view : σ → τ) : EStateM.Result ε σ α → EStateM.Result ε τ α
  | .ok a s => .ok a (view s)
  | .error e s => .error e (view s)

@[simp] theorem onState_ok (view : σ → τ) (a : α) (s : σ) :
    onState view (.ok a s : EStateM.Result ε σ α) = .ok a (view s) := rfl

@[simp] theorem onState_error (view : σ → τ) (e : ε) (s : σ) :
    onState view (.error e s : EStateM.Result ε σ α) = .error e (view s) := rfl

theorem run_get (s : σ) : (get : EStateM ε σ σ) s = .ok s s := rfl

theorem run_set (s t : σ) : (set t : EStateM ε σ PUnit) s = .ok ⟨⟩ t := rfl

theorem run_modify (f : σ → σ) (s : σ) : (modify f : EStateM ε σ PUnit) s = .ok ⟨⟩ (f s) := rfl

theorem run_throw (e : ε) (s : σ) : (throw e : EStateM ε σ α) s = .error e s := rfl

/-- A sequence of steps succeeds when both parts do, one after the other. -/
theorem run_bind_eq_ok_iff {x : EStateM ε σ α} {f : α → EStateM ε σ β} {s s' : σ} {b : β} :
    (x >>= f) s = .ok b s' ↔ ∃ a t, x s = .ok a t ∧ f a t = .ok b s' := by
  simp only [bind, EStateM.bind]
  cases x s with
  | ok a t => simp
  | error e t => simp

/-- A sequence of steps fails when one of its parts does, and with the error of that part. -/
theorem run_bind_eq_error_iff {x : EStateM ε σ α} {f : α → EStateM ε σ β} {s s' : σ} {e : ε} :
    (x >>= f) s = .error e s' ↔ x s = .error e s' ∨ ∃ a t, x s = .ok a t ∧ f a t = .error e s' := by
  simp only [bind, EStateM.bind]
  cases x s with
  | ok a t => simp
  | error e' t => simp

@[simp] theorem run_pure_eq_ok_iff {a b : α} {s s' : σ} :
    (pure a : EStateM ε σ α) s = .ok b s' ↔ a = b ∧ s = s' := by
  simp [pure, EStateM.pure]

@[simp] theorem run_throw_eq_ok_iff {e : ε} {b : α} {s s' : σ} :
    (throw e : EStateM ε σ α) s = .ok b s' ↔ False := by
  simp [run_throw]

/-- After a first part that succeeds, a sequence goes on from its state. -/
theorem bind_ok {x : EStateM ε σ α} {f : α → EStateM ε σ β} {s s' : σ} {a : α}
    (first : x s = .ok a s') : (x >>= f) s = f a s' := by
  simp [bind, EStateM.bind, first]

/-- A first part that fails ends a sequence. -/
theorem bind_error {x : EStateM ε σ α} {f : α → EStateM ε σ β} {s s' : σ} {e : ε}
    (first : x s = .error e s') : (x >>= f) s = .error e s' := by
  simp [bind, EStateM.bind, first]

/-- Steps for the items of a list fail at the first item whose step fails, after the steps for all before it. -/
theorem exists_of_forM_error {γ : Type} {f : γ → EStateM ε σ Unit} {cs : List γ} {s s' : σ} {e : ε}
    (failed : forM cs f s = .error e s') : ∃ before c after t, cs = before ++ c :: after ∧
      forM before f s = .ok () t ∧ f c t = .error e s' := by
  induction cs generalizing s with
  | nil => cases failed
  | cons c cs ih =>
    rw [List.forM_cons] at failed
    cases first : f c s with
    | error e' t =>
      rw [bind_error first] at failed
      cases failed
      exact ⟨[], c, cs, s, rfl, rfl, first⟩
    | ok _ t =>
      rw [bind_ok first] at failed
      obtain ⟨before, c', after, u, rfl, done, failed'⟩ := ih failed
      exact ⟨c :: before, c', after, u, rfl, (bind_ok first).trans done, failed'⟩

/-- The state that a computation leaves, also where it fails. -/
def final : EStateM.Result ε σ α → σ
  | .ok _ s => s
  | .error _ s => s

@[simp] theorem final_ok (a : α) (s : σ) : final (.ok a s : EStateM.Result ε σ α) = s := rfl

@[simp] theorem final_error (e : ε) (s : σ) : final (.error e s : EStateM.Result ε σ α) = s := rfl

@[simp] theorem final_onState (view : σ → τ) (r : EStateM.Result ε σ α) :
    final (onState view r) = view (final r) := by
  cases r <;> rfl

/-- A computation leaves a state that is related to the one it starts from. -/
def Respects (R : σ → σ → Prop) (m : EStateM ε σ α) : Prop := ∀ s, R s (final (m s))

section Respects

variable {R : σ → σ → Prop}

/-- Two steps in a row respect a transitive relation if both do. -/
theorem Respects.bind {m : EStateM ε σ α} {f : α → EStateM ε σ β}
    (trans : ∀ {s t u}, R s t → R t u → R s u) (first : Respects R m) (rest : ∀ a, Respects R (f a)) :
    Respects R (m >>= f) := by
  intro s
  have here := first s
  cases now : m s with
  | ok a t =>
    rw [now] at here
    rw [bind_ok now]
    exact trans here (rest a t)
  | error e t =>
    rw [now] at here
    rw [bind_error now]
    exact here

theorem respects_pure (refl : ∀ s, R s s) (a : α) : Respects R (pure a : EStateM ε σ α) := refl

theorem respects_throw (refl : ∀ s, R s s) (e : ε) : Respects R (throw e : EStateM ε σ α) := refl

/-- The rest of a computation is looked at for the state that it begins with only. -/
theorem respects_get_bind {f : σ → EStateM ε σ α} (rest : ∀ s, R s (final (f s s))) :
    Respects R (get >>= f) := rest

/-- The rest of a computation that looks at the state is any of those that it might be. -/
theorem respects_look {f : σ → EStateM ε σ α} (rest : ∀ s, Respects R (f s)) :
    Respects R (get >>= f) := respects_get_bind fun s => rest s s

end Respects

end State

section Mirrors

variable {ε σ τ α β γ δ : Type}

/-- Two computations end alike: both with values that are related or both with the same error, and in states
that are related. -/
inductive Alike (P : σ → τ → Prop) (V : α → β → Prop) :
    EStateM.Result ε σ α → EStateM.Result ε τ β → Prop
  | ok {a : α} {b : β} {s : σ} {t : τ} (value : V a b) (state : P s t) : Alike P V (.ok a s) (.ok b t)
  | error {e : ε} {s : σ} {t : τ} (state : P s t) : Alike P V (.error e s) (.error e t)

/-- Two computations end alike wherever they begin in states that are related. -/
def Mirrors (P : σ → τ → Prop) (V : α → β → Prop) (m : EStateM ε σ α) (m' : EStateM ε τ β) : Prop :=
  ∀ s t, P s t → Alike P V (m s) (m' t)

variable {P : σ → τ → Prop} {V : α → β → Prop} {W : γ → δ → Prop}

/-- Computations that begin alike and go on alike end alike. -/
theorem alike_bind {m : EStateM ε σ α} {m' : EStateM ε τ β} {f : α → EStateM ε σ γ}
    {f' : β → EStateM ε τ δ} {s : σ} {t : τ} (first : Alike P V (m s) (m' t))
    (rest : ∀ a b, V a b → Mirrors P W (f a) (f' b)) : Alike P W ((m >>= f) s) ((m' >>= f') t) := by
  cases here : m s with
  | ok a s' =>
    cases there : m' t with
    | ok b t' =>
      rw [here, there] at first
      rw [bind_ok here, bind_ok there]
      cases first with
      | ok value state => exact rest a b value s' t' state
    | error e t' =>
      rw [here, there] at first
      cases first
  | error e s' =>
    cases there : m' t with
    | ok b t' =>
      rw [here, there] at first
      cases first
    | error e t' =>
      rw [here, there] at first
      rw [bind_error here, bind_error there]
      cases first with
      | error state => exact .error state

/-- Two pairs of steps in a row that mirror one another. -/
theorem Mirrors.bind {m : EStateM ε σ α} {m' : EStateM ε τ β} {f : α → EStateM ε σ γ}
    {f' : β → EStateM ε τ δ} (first : Mirrors P V m m')
    (rest : ∀ a b, V a b → Mirrors P W (f a) (f' b)) : Mirrors P W (m >>= f) (m' >>= f') :=
  fun s t related => alike_bind (first s t related) rest

theorem mirrors_pure {a : α} {b : β} (value : V a b) :
    Mirrors P V (pure a : EStateM ε σ α) (pure b : EStateM ε τ β) := fun _ _ => .ok value

theorem mirrors_refl (m : EStateM ε σ α) : Mirrors Eq Eq m m := by
  rintro s _ rfl
  cases m s with
  | ok a s' => exact .ok rfl rfl
  | error e s' => exact .error rfl

theorem mirrors_throw (e : ε) : Mirrors P V (throw e : EStateM ε σ α) (throw e : EStateM ε τ β) :=
  fun _ _ => .error

/-- What mirrors is mirrored. -/
theorem Mirrors.symm {m : EStateM ε σ α} {m' : EStateM ε τ β} (mirrors : Mirrors P V m m') :
    Mirrors (fun t s => P s t) (fun b a => V a b) m' m := fun t s related => by
  have ends := mirrors s t related
  generalize m s = r at ends
  generalize m' t = r' at ends
  cases ends with
  | ok value state => exact .ok value state
  | error state => exact .error state

/-- What mirrors a computation that succeeds succeeds. -/
theorem Mirrors.exists_ok {m : EStateM ε σ α} {m' : EStateM ε τ β} (mirrors : Mirrors P V m m') {s s' : σ} {t : τ}
    (related : P s t) {a : α} (done : m s = .ok a s') : ∃ b t', m' t = .ok b t' ∧ V a b ∧ P s' t' := by
  have ends := mirrors s t related
  rw [done] at ends
  cases there : m' t with
  | ok b t' =>
    rw [there] at ends
    cases ends with
    | ok value state => exact ⟨b, t', rfl, value, state⟩
  | error e t' =>
    rw [there] at ends
    cases ends

/-- Outcomes that are alike are so under a view of the states. -/
theorem Alike.onState {σ' τ' : Type} {Q : σ' → τ' → Prop} {r : EStateM.Result ε σ α}
    {r' : EStateM.Result ε τ β} {view : σ → σ'} {view' : τ → τ'} (ends : Alike P V r r')
    (states : ∀ s t, P s t → Q (view s) (view' t)) : Alike Q V (onState view r) (onState view' r') := by
  cases ends with
  | ok value state => exact .ok value (states _ _ state)
  | error state => exact .error (states _ _ state)

/-- The rest of a computation that looks at the state is looked at for related states. -/
theorem mirrors_look {f : σ → EStateM ε σ α} {f' : τ → EStateM ε τ β}
    (rest : ∀ s t, P s t → Mirrors P V (f s) (f' t)) : Mirrors P V (get >>= f) (get >>= f') :=
  fun s t related => rest s t related s t related

/-- Steps for the items of lists go along with each other if those for related items do. -/
theorem mirrors_forM {R : γ → δ → Prop} {f : γ → EStateM ε σ Unit} {f' : δ → EStateM ε τ Unit} {cs : List γ}
    {ds : List δ} (each : List.Forall₂ R cs ds) (step : ∀ c d, R c d → Mirrors P Eq (f c) (f' d)) :
    Mirrors P Eq (forM cs f) (forM ds f') := by
  induction each with
  | nil => exact mirrors_pure rfl
  | cons first _ ih => exact (step _ _ first).bind fun _ _ _ => ih

end Mirrors

end WasmEngine.Outcome
