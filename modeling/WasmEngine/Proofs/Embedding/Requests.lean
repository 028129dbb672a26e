import WasmEngine.Proofs.Embedding.RenamedInstances

/-!
# What instances are asked for

An embedding calls the functions that an instance exports, reads its globals and memories, and writes to its
memories.  An instance of a session lends its store to the operations on exports (`Session.invoke_eq`,
`Session.writeMemory_eq`).  In stores that differ at most in their addresses, instances
answer alike whatever they are asked for one after the other, but for the address in the message about a wrong
number of arguments (`serve_of_renamed`).
-/

namespace WasmEngine

open Outcome

/-- What an instance is asked for. -/
inductive Request where
  | call (name : String) (args : List Value)
  | global (name : String)
  /-- The number of pages of a memory. -/
  | pages (name : String)
  /-- A range of bytes of a memory. -/
  | bytes (name : String) (offset length : Nat)

/-- What an instance answers. -/
inductive Answer where
  | results (values : List Value)
  | value (v : Value)
  | pages (count : Nat)
  | bytes (bs : List UInt8)

namespace Running

variable {σ : Type}

/-- The answer of an instance. -/
def answer (env : Environment σ) (fuel : Nat) (refuseI64 : Bool) (owner : Nat) : Request → Running σ Answer
  | .call name args => return .results (← callExport env fuel refuseI64 owner name args)
  | .global name => return .value (← inStore fun s => s.exportedGlobal owner name)
  | .pages name => return .pages (← inStore fun s => s.exportedMemory owner name).pages
  | .bytes name offset length => return .bytes (← inStore fun s => do
      (← s.exportedMemory owner name).read offset length)

/-- The answers of an instance one after the other, and what is left after them.  An error is an answer as well. -/
def serve (env : Environment σ) (fuel : Nat) (refuseI64 : Bool) (owner : Nat) :
    List Request → Store × σ → List (Except EngineError Answer) × Store × σ
  | [], x => ([], x)
  | request :: requests, x =>
    match answer env fuel refuseI64 owner request x with
    | .ok a y => (serve env fuel refuseI64 owner requests y).map (.ok a :: ·) id
    | .error e y => (serve env fuel refuseI64 owner requests y).map (.error e :: ·) id

end Running

/-! ## Instances of sessions -/

namespace Session

variable {s : Session} {i : Instance} {store : Store}

/-- A store that is lent and comes back as it was leaves the session as it was. -/
theorem restore (here : s.store i.store = .ok store) :
    (s.stores.setIfInBounds i.store none).setIfInBounds i.store (some store) = s.stores := by
  have found : s.stores[i.store]? = some (some store) := by
    unfold Session.store at here
    split at here
    · next at_ => rwa [← Except.ok.inj here]
    · cases here
  refine Array.ext_getElem? fun j => ?_
  by_cases same : i.store = j
  · subst same
    have inside : i.store < (s.stores.setIfInBounds i.store none).size := by
      rw [Array.size_setIfInBounds]
      exact (Array.getElem?_eq_some_iff.1 found).1
    rw [found, Array.getElem?_setIfInBounds_self_of_lt inside]
  · rw [Array.getElem?_setIfInBounds_ne same, Array.getElem?_setIfInBounds_ne same]

/-- What an instance of a session exports is looked up in its store. -/
theorem lookup_eq (here : s.store i.store = .ok store) (name : String) :
    s.lookup i name = store.lookup i.address name := by
  rw [Session.lookup, moduleInstance, here]
  rfl

/-- What is found in the store of an instance is found in it as well where it is lent. -/
theorem lend_inStore {α : Type} (s : Session) (i : Instance) (f : Store → Except Fault α) :
    lend i.store (Running.inStore f) s = ofResult (s.store i.store >>= f) s := by
  cases here : s.store i.store with
  | error e =>
    rw [lend, here]
    rfl
  | ok store =>
    have back := restore here
    rw [lend, here]
    show _ = ofResult (f store) s
    cases found : f store with
    | error e =>
      simp only [Running.inStore_error (x := (store, _)) found, back]
      rfl
    | ok a =>
      simp only [Running.inStore_ok (x := (store, _)) found, back]
      rfl

/-- Reading a global of a session is reading it in its store. -/
theorem global_eq (s : Session) (i : Instance) (name : String) : ofResult (s.global i name) s =
    lend i.store (Running.inStore fun store => store.exportedGlobal i.address name) s := by
  rw [lend_inStore]
  cases here : s.store i.store with
  | error e =>
    rw [global, Session.lookup, moduleInstance, here]
    rfl
  | ok store =>
    rw [global, lookup_eq here, here]
    rfl

/-- Reading a memory of a session is reading it in its store. -/
theorem memory_eq (s : Session) (i : Instance) (name : String) : ofResult (s.memory i name) s =
    lend i.store (Running.inStore fun store => store.exportedMemory i.address name) s := by
  rw [lend_inStore]
  cases here : s.store i.store with
  | error e =>
    rw [memory, memoryAddress, Session.lookup, moduleInstance, here]
    rfl
  | ok store =>
    rw [memory, memoryAddress, lookup_eq here, here]
    show _ = ofResult (store.exportedMemory i.address name) s
    rw [Store.exportedMemory]
    cases store.lookup i.address name with
    | error e => rfl
    | ok found =>
      obtain _ | ⟨kind, address⟩ := found
      · rfl
      · cases kind <;> rfl

/-- A function that may be called is looked up among the exports of its instance, and refused for its type there. -/
theorem callable_eq_lookup (here : s.store i.store = .ok store) (name : String) :
    callable i name s = (ofResult (store.lookup i.address name) >>= fun found => match found with
      | some ⟨.func, address⟩ => (do
        if i.config.refuseI64 then
          let f ← ofResult ((← ofResult (s.store i.store)).func address)
          if usesI64 f.type then
            throw (EngineError.link .i64InSignature)
        return address)
      | some _ => throw (EngineError.fault (.notAFunction name))
      | none => throw (EngineError.fault (.unknownExport name))) s := by
  rw [← lookup_eq here]
  rfl

/-- A function that may be called is found without a change, neither of the session nor of the store. -/
theorem callable_eq {σ : Type} (here : s.store i.store = .ok store) (name : String) (w : σ) :
    (∃ a, callable i name s = .ok a s ∧
      Running.callable i.config.refuseI64 i.address name (store, w) = .ok a (store, w)) ∨
    ∃ e, callable i name s = .error e s ∧
      Running.callable i.config.refuseI64 i.address name (store, w) = .error e (store, w) := by
  rw [callable_eq_lookup here, Running.callable]
  cases found : store.lookup i.address name with
  | error e =>
    rw [bind_error (Running.inStore_error found)]
    exact .inr ⟨.fault e, rfl, rfl⟩
  | ok found? =>
    rw [bind_ok (Running.inStore_ok found), ofResult, pure_bind]
    obtain _ | ⟨kind, address⟩ := found?
    · exact .inr ⟨_, rfl, rfl⟩
    · cases kind with
      | func =>
        cases refuse : i.config.refuseI64 with
        | false => exact .inl ⟨address, rfl, rfl⟩
        | true =>
          rw [here]
          simp only [if_true, ofResult, pure_bind]
          cases func : store.func address with
          | error e =>
            rw [bind_error (Running.inStore_error func)]
            exact .inr ⟨.fault e, rfl, rfl⟩
          | ok f =>
            rw [bind_ok (Running.inStore_ok func), pure_bind]
            cases usesI64 f.type with
            | true => exact .inr ⟨_, rfl, rfl⟩
            | false => exact .inl ⟨address, rfl, rfl⟩
      | _ => exact .inr ⟨_, rfl, rfl⟩

/-- An instance of a session is called as an instance of the store that it lends. -/
theorem invoke_eq (s : Session) (i : Instance) (name : String) (args : List Value) : invoke i name args s =
    lend i.store (Running.callExport (s.environment i.config) s.fuel i.config.refuseI64 i.address name args) s := by
  cases here : s.store i.store with
  | error e =>
    have refused : callable i name s = .error (.fault e) s := by
      rw [callable]
      show (ofResult (s.lookup i name) >>= _) s = _
      rw [Session.lookup, moduleInstance, here]
      rfl
    rw [invoke, bind_error refused, lend, here]
  | ok store =>
    have back := restore here
    obtain ⟨a, found, found'⟩ | ⟨e, failed, failed'⟩ :=
      callable_eq here name { s with stores := s.stores.setIfInBounds i.store none }
    · rw [invoke, bind_ok found]
      show lend i.store (Running.invoke (s.environment i.config) s.fuel a args) s = _
      rw [lend, lend, here]
      simp only [Running.callExport, bind_ok found']
    · rw [invoke, bind_error failed, lend, here]
      simp only [Running.callExport, bind_error failed', back]

/-- An instance of a session is written to as an instance of the store that it lends. -/
theorem writeMemory_eq (s : Session) (i : Instance) (name : String) (offset : Nat) (bytes : List UInt8) :
    writeMemory i name offset bytes s = lend i.store (Running.writeExport i.address name offset bytes) s := by
  cases here : s.store i.store with
  | error e =>
    have refused : s.memoryAddress i name = .error e := by
      rw [memoryAddress, Session.lookup, moduleInstance, here]
      rfl
    rw [lend, here]
    show (ofResult (s.memoryAddress i name) >>= _) s = _
    rw [refused]
    rfl
  | ok store =>
    have same : s.memoryAddress i name = store.exportedAddress i.address name := by
      rw [memoryAddress, lookup_eq here]
      rfl
    have back := restore here
    show (ofResult (s.memoryAddress i name) >>= fun address =>
      lend i.store (.onLinking (.onStore (Store.writeMemory address offset bytes)))) s = _
    rw [same]
    -- The store in which the address is looked up is the one that was lent.
    let lent : Session := { s with stores := s.stores.setIfInBounds i.store none }
    cases found : store.exportedAddress i.address name with
    | error e =>
      have failed : Running.inStore (fun store => store.exportedAddress i.address name) (store, lent) =
          .error (.fault e) (store, lent) := Running.inStore_error found
      rw [lend, here]
      simp only [Running.writeExport, bind_error failed, lent, back]
      rfl
    | ok address =>
      have reached : Running.inStore (fun store => store.exportedAddress i.address name) (store, lent) =
          .ok address (store, lent) := Running.inStore_ok found
      rw [ofResult, pure_bind, lend, lend, here]
      simp only [Running.writeExport, lent, bind_ok reached]

end Session

/-! ## Answers at other addresses -/

/-- Exports of one kind with addresses that stand for each other. -/
structure Extern.Renamed (ρ : Renaming) (v v' : Extern) : Prop where
  kind : v'.kind = v.kind
  address : ρ v.kind v.address v'.address

/-- Exports of corresponding instances correspond. -/
theorem ModuleInstance.Renamed.rel_export? {ρ : Renaming} {i j : ModuleInstance} (renamed : i.Renamed ρ j)
    (name : String) : Option.Rel (Extern.Renamed ρ) (i.export? name) (j.export? name) := by
  have exports := renamed.exports
  unfold ModuleInstance.export?
  generalize i.exports = es at exports
  generalize j.exports = es' at exports
  induction exports with
  | nil => exact .none
  | @cons e e' es es' same _ ih =>
    rw [List.find?_cons, List.find?_cons, same.name]
    cases e.name == name with
    | true => exact .some ⟨same.kind, same.address⟩
    | false => exact ih

namespace Store.Renamed

variable {ρ : Renaming} {s t : Store} (renamed : s.Renamed ρ t) (owner : Nat) (name : String)
include renamed

/-- Names are found in both stores, or in none. -/
theorem lookup : Found (Option.Rel (Extern.Renamed ρ)) (s.lookup owner name) (t.lookup owner name) :=
  (renamed.instances owner).bind fun _ _ same => .ok (same.rel_export? name)

/-- Globals that are exported have the same value in both stores. -/
theorem exportedGlobal : Found Eq (s.exportedGlobal owner name) (t.exportedGlobal owner name) := by
  refine (renamed.lookup owner name).bind fun v v' same => ?_
  cases same with
  | none => exact .error _
  | @some v v' same =>
    obtain ⟨kind, address⟩ := v
    obtain ⟨kind', address'⟩ := v'
    obtain ⟨rfl, related⟩ := same
    cases kind' with
    | global =>
      obtain ⟨g, here, there⟩ := renamed.global related
      simp only [here, there]
      exact .ok rfl
    | _ => exact .error _

/-- Memories that are exported have the same bytes in both stores. -/
theorem exportedMemory : Found Eq (s.exportedMemory owner name) (t.exportedMemory owner name) := by
  refine (renamed.lookup owner name).bind fun v v' same => ?_
  cases same with
  | none => exact .error _
  | @some v v' same =>
    obtain ⟨kind, address⟩ := v
    obtain ⟨kind', address'⟩ := v'
    obtain ⟨rfl, related⟩ := same
    cases kind' with
    | memory =>
      obtain ⟨m, here, there⟩ := renamed.memory related
      simp only [here, there]
      exact .ok rfl
    | _ => exact .error _

end Store.Renamed

/-- An error without the address that is named where the number of arguments is wrong. -/
def EngineError.unaddressed : EngineError → EngineError
  | .run h => .run h.unaddressed
  | e => e

namespace Running

variable {σ α β : Type} {ρ : Renaming}

theorem follows_inStore {V : α → β → Prop} {f : Store → Except Fault α} {g : Store → Except Fault β}
    (found : ∀ s t, s.Renamed ρ t → Found V (f s) (g t)) :
    Mirrors (RenamedWith ρ) V (inStore f : Running σ α) (inStore g) := by
  intro x y renamed
  have here := found x.1 y.1 renamed.1
  cases first : f x.1 <;> cases second : g y.1 <;> rw [first, second] at here <;> cases here
  · rw [inStore_error first, inStore_error second]
    exact .error renamed
  · rw [inStore_ok first, inStore_ok second]
    exact .ok ‹_› renamed

theorem follows_callable (refuseI64 : Bool) (owner : Nat) (name : String) : Mirrors (RenamedWith ρ) (ρ .func)
    (callable refuseI64 owner name : Running σ Nat) (callable refuseI64 owner name) := by
  refine (follows_inStore fun s t renamed => renamed.lookup owner name).bind fun v v' same => ?_
  cases same with
  | none => exact mirrors_throw _
  | @some v v' same =>
    obtain ⟨kind, address⟩ := v
    obtain ⟨kind', address'⟩ := v'
    obtain ⟨rfl, related⟩ := same
    cases kind' with
    | func =>
      dsimp only
      split_ifs
      · refine (follows_inStore (V := fun f f' => f'.type = f.type) fun s t renamed => ?_).bind fun f f' same => ?_
        · obtain ⟨f, f', here, there, alike⟩ := renamed.func related
          rw [here, there]
          exact .ok alike.type
        · rw [same]
          split_ifs
          · exact mirrors_throw _
          · exact mirrors_pure related
      · exact mirrors_pure related
    | _ => exact mirrors_throw _

/-- An operation whose errors name no address. -/
def unaddressed (f : Running σ α) : Running σ α := EStateM.adaptExcept EngineError.unaddressed f

/-- Addresses are taken out of the errors of both parts of a run. -/
theorem unaddressed_bind (f : Running σ α) (g : α → Running σ β) :
    unaddressed (f >>= g) = unaddressed f >>= fun a => unaddressed (g a) := by
  funext x
  cases first : f x with
  | ok a y =>
    have here : unaddressed f x = .ok a y := by simp only [unaddressed, EStateM.adaptExcept, first]
    rw [bind_ok here, unaddressed, EStateM.adaptExcept, bind_ok first]
    rfl
  | error e y =>
    have here : unaddressed f x = .error e.unaddressed y := by simp only [unaddressed, EStateM.adaptExcept, first]
    rw [bind_error here, unaddressed, EStateM.adaptExcept, bind_error first]

theorem follows_unaddressed {V : α → β → Prop} {f : Running σ α} {g : Running σ β}
    (same : Mirrors (RenamedWith ρ) V f g) : Mirrors (RenamedWith ρ) V (unaddressed f) (unaddressed g) := by
  intro x y renamed
  have ends := same x y renamed
  rw [unaddressed, unaddressed, EStateM.adaptExcept, EStateM.adaptExcept]
  generalize f x = r at ends
  generalize g y = r' at ends
  cases ends with
  | ok value state => exact .ok value state
  | error state => exact .error state

theorem follows_invoke (env : Environment σ) (fuel : Nat) {a a' : Nat} (related : ρ .func a a')
    (args : List Value) : Mirrors (RenamedWith ρ) Eq (unaddressed (invoke env fuel a args))
      (unaddressed (invoke env fuel a' args)) := by
  intro x y renamed
  rw [unaddressed, unaddressed, EStateM.adaptExcept, EStateM.adaptExcept, invoke, invoke]
  obtain ends | ⟨given, expected, failed, failed'⟩ := alike_invoke env fuel related args renamed
  · generalize WasmEngine.invoke env fuel a args x = r at ends
    generalize WasmEngine.invoke env fuel a' args y = r' at ends
    cases ends with
    | ok value state => exact .ok value state
    | error state => exact .error state
  · rw [failed, failed']
    exact .error renamed

/-- An instance answers a request alike at addresses that stand for each other. -/
theorem follows_answer (env : Environment σ) (fuel : Nat) (refuseI64 : Bool) (owner : Nat) (request : Request) :
    Mirrors (RenamedWith ρ) Eq (unaddressed (answer env fuel refuseI64 owner request))
      (unaddressed (answer env fuel refuseI64 owner request)) := by
  cases request with
  | call name args =>
    rw [answer, callExport, bind_assoc, unaddressed_bind]
    refine (follows_unaddressed (follows_callable refuseI64 owner name)).bind fun a a' related => ?_
    rw [unaddressed_bind, unaddressed_bind]
    refine (follows_invoke env fuel related args).bind fun vs vs' same => ?_
    exact same ▸ mirrors_pure rfl
  | global name =>
    refine follows_unaddressed ((follows_inStore fun s t renamed => renamed.exportedGlobal owner name).bind ?_)
    exact fun v v' same => same ▸ mirrors_pure rfl
  | pages name =>
    refine follows_unaddressed ((follows_inStore fun s t renamed => renamed.exportedMemory owner name).bind ?_)
    exact fun m m' same => same ▸ mirrors_pure rfl
  | bytes name offset length =>
    refine follows_unaddressed ((follows_inStore (V := Eq) fun s t renamed => ?_).bind ?_)
    · exact (renamed.exportedMemory owner name).bind fun m m' same => same ▸ found_rfl _
    · exact fun bs bs' same => same ▸ mirrors_pure rfl

/-- Instances at addresses that stand for each other answer alike whatever they are asked for, and the embedding
sees the same. -/
theorem serve_of_renamed (env : Environment σ) (fuel : Nat) (refuseI64 : Bool) (owner : Nat)
    (requests : List Request) {x x' : Store × σ} (renamed : RenamedWith ρ x x') :
    (serve env fuel refuseI64 owner requests x').1.map (Except.mapError EngineError.unaddressed) =
      (serve env fuel refuseI64 owner requests x).1.map (Except.mapError EngineError.unaddressed) ∧
    RenamedWith ρ (serve env fuel refuseI64 owner requests x).2 (serve env fuel refuseI64 owner requests x').2 := by
  induction requests generalizing x x' with
  | nil => exact ⟨rfl, renamed⟩
  | cons request requests ih =>
    have ends := follows_answer env fuel refuseI64 owner request x x' renamed
    rw [unaddressed, EStateM.adaptExcept, EStateM.adaptExcept] at ends
    rw [serve, serve]
    generalize answer env fuel refuseI64 owner request x = r at ends
    generalize answer env fuel refuseI64 owner request x' = r' at ends
    cases r with
    | ok a y =>
      cases r' with
      | ok a' y' =>
        obtain ⟨rfl, renamed⟩ := ends
        obtain ⟨answers, states⟩ := ih renamed
        exact ⟨congrArg (_ :: ·) answers, states⟩
      | error e' y' => cases ends
    | error e y =>
      cases r' with
      | ok a' y' => cases ends
      | error e' y' =>
        obtain ⟨same, renamed⟩ : e'.unaddressed = e.unaddressed ∧ RenamedWith ρ y y' := by
          change Alike _ _ (.error e.unaddressed y) (.error e'.unaddressed y') at ends
          generalize e.unaddressed = u at ends ⊢
          generalize e'.unaddressed = u' at ends ⊢
          cases ends with
          | error state => exact ⟨rfl, state⟩
        obtain ⟨answers, states⟩ := ih renamed
        refine ⟨?_, states⟩
        show (.error e'.unaddressed : Except EngineError Answer) :: _ = .error e.unaddressed :: _
        rw [same, answers]

end Running

end WasmEngine
