import WasmEngine.Proofs.Syntax.Children

/-!
# Walks with a record

A walk below a node is composed of the walks of its children, so a property that composes is shown for
all kinds of nodes at once.  Visitors can be made to write down what they saw and what they left, which does
not change the walk.  When a visitor stops the walk, its call is the last.
-/

namespace WasmEngine

namespace Walk

variable {σ τ : Type}

/-- A property of two walks of one part that holds of a walk as soon as it holds of its steps.  It
speaks of the part as it was and of the nodes that are passed. -/
structure Composes (P : {α : Type} → α → List Child → WalkM σ α → WalkM τ α → Prop) : Prop where
  pure {α : Type} (a : α) : P a [] (pure a) (pure a)
  bind {α β : Type} {a : α} {below beyond : List Child} {m : WalkM σ α} {m' : WalkM τ α} {g : α → β}
    {k : α → WalkM σ β} {k' : α → WalkM τ β} (first : P a below m m')
    (rest : ∀ b, P (g b) beyond (k b) (k' b)) : P (g a) (below ++ beyond) (m >>= k) (m' >>= k')

namespace Composes

open Child (listed alone)

variable {P : {α : Type} → α → List Child → WalkM σ α → WalkM τ α → Prop} {α β : Type}

/-- The last step of a walk puts the part together. -/
theorem map (composes : Composes P) {a : α} {below : List Child} {m : WalkM σ α} {m' : WalkM τ α}
    (g : α → β) (first : P a below m m') :
    P (g a) below (do return g (← m)) (do return g (← m')) := by
  have mapped := composes.bind (g := g) first fun b => composes.pure (g b)
  rwa [List.append_nil] at mapped

/-- What composes holds of a list that is walked element by element. -/
theorem list_mapM (composes : Composes P) {m : α → WalkM σ α} {m' : α → WalkM τ α}
    {node : α → Node} (each : ∀ a, P a (alone [node a]) (m a) (m' a)) :
    ∀ l : List α, P l (alone (l.map node)) (l.mapM m) (l.mapM m')
  | [] => by
    rw [List.mapM_nil, List.mapM_nil]
    exact composes.pure []
  | a :: l => by
    rw [List.mapM_cons, List.mapM_cons]
    exact composes.bind (g := (· :: l)) (each a) fun b => composes.map (b :: ·) (composes.list_mapM each l)

/-- What composes holds of an optional part. -/
theorem option_mapM (composes : Composes P) {m : α → WalkM σ α} {m' : α → WalkM τ α}
    {node : α → Node} (each : ∀ a, P a (alone [node a]) (m a) (m' a)) :
    ∀ o : Option α, P o (alone (o.toList.map node)) (o.mapM m) (o.mapM m')
  | none => composes.pure none
  | some a => composes.map some (each a)

variable {one : Node → WalkM σ Node} {one' : Node → WalkM τ Node}

/-- What composes holds of a part that is walked as a node. -/
theorem part (composes : Composes P) (one_ok : ∀ node, P node (alone [node]) (one node) (one' node))
    {wrap : α → Node} {unwrap : Node → Option α} (a : α) (inverse : unwrap (wrap a) = some a) :
    P a (alone [wrap a]) (parts.part one wrap unwrap a) (parts.part one' wrap unwrap a) := by
  have walked := composes.map (fun node => (unwrap node).getD a) (one_ok (wrap a))
  rwa [inverse, Option.getD_some] at walked

/-- What composes holds of an index. -/
theorem index (composes : Composes P) (one_ok : ∀ node, P node (alone [node]) (one node) (one' node)) :
    ∀ i : Index, P i (alone [.ofIndex i]) (parts.index one i) (parts.index one' i) := by
  have number (n) : P n (alone [.number n]) (parts.number one n) (parts.number one' n) :=
    composes.part one_ok n rfl
  have identifier (id) :
      P id (alone [.identifier id]) (parts.identifier one id) (parts.identifier one' id) :=
    composes.part one_ok id rfl
  intro i
  cases i with
  | number n => exact composes.map Index.number (number n)
  | identifier id => exact composes.map Index.identifier (identifier id)

/-- What composes holds of a reference to a signature. -/
theorem signatureRef (composes : Composes P)
    (one_ok : ∀ node, P node (alone [node]) (one node) (one' node)) :
    ∀ sig : SignatureRef,
      P sig (alone [.ofSignatureRef sig]) (parts.signatureRef one sig) (parts.signatureRef one' sig) := by
  have signature (s) : P s (alone [.signature s]) (parts.signature one s) (parts.signature one' s) :=
    composes.part one_ok s rfl
  intro sig
  cases sig with
  | inline s => exact composes.map SignatureRef.inline (signature s)
  | ref i => exact composes.map SignatureRef.ref (composes.index one_ok i)

variable {many : List Node → WalkM σ (List Node)} {many' : List Node → WalkM τ (List Node)}

/-- What composes holds of the parts of a node, in their order. -/
theorem parts (composes : Composes P)
    (one_ok : ∀ node, P node (alone [node]) (one node) (one' node))
    (many_ok : ∀ nodes, P nodes (listed nodes) (many nodes) (many' nodes)) (node : Node) :
    P node node.children (parts one many node) (parts one' many' node) := by
  have identifier (id) :
      P id (alone [.identifier id]) (parts.identifier one id) (parts.identifier one' id) :=
    composes.part one_ok id rfl
  have number (n) : P n (alone [.number n]) (parts.number one n) (parts.number one' n) :=
    composes.part one_ok n rfl
  have limits (l) : P l (alone [.limits l]) (parts.limits one l) (parts.limits one' l) :=
    composes.part one_ok l rfl
  have globalType (t) :
      P t (alone [.globalType t]) (parts.globalType one t) (parts.globalType one' t) :=
    composes.part one_ok t rfl
  have index := composes.index one_ok
  have signatureRef := composes.signatureRef one_ok
  cases node with
  | program body => exact composes.map Node.program (many_ok body)
  | module id fields metadata =>
    have whole (m) : P m (alone [.moduleMetadata m])
        (parts.moduleMetadata one m) (parts.moduleMetadata one' m) :=
      composes.part one_ok m rfl
    exact composes.bind (g := (Node.module id · metadata)) (many_ok fields) fun fields =>
      composes.map (Node.module id fields) (composes.option_mapM whole metadata)
  | moduleMetadata m =>
    have section_ok (s) : P s (alone [.sectionMetadata s])
        (parts.sectionMetadata one s) (parts.sectionMetadata one' s) :=
      composes.part one_ok s rfl
    have functionName (n) : P n (alone [.functionName n])
        (parts.functionName one n) (parts.functionName one' n) :=
      composes.part one_ok n rfl
    have localName (n) :
        P n (alone [.localName n]) (parts.localName one n) (parts.localName one' n) :=
      composes.part one_ok n rfl
    have moduleName (n) :
        P n (alone [.moduleName n]) (parts.moduleName one n) (parts.moduleName one' n) :=
      composes.part one_ok n rfl
    exact composes.bind (g := fun sections => Node.moduleMetadata { m with sections })
      (composes.list_mapM section_ok m.sections) fun sections =>
      composes.bind (g := fun functionNames => Node.moduleMetadata { m with sections, functionNames })
        (composes.list_mapM functionName m.functionNames) fun functionNames =>
        composes.bind
          (g := fun localNames => Node.moduleMetadata { m with sections, functionNames, localNames })
          (composes.list_mapM localName m.localNames) fun localNames =>
          composes.map (fun moduleName => Node.moduleMetadata ⟨sections, functionNames, localNames, moduleName⟩)
            (composes.option_mapM moduleName m.moduleName)
  | sectionMetadata s =>
    exact composes.bind (g := fun size => Node.sectionMetadata { s with size }) (number s.size) fun size =>
      composes.map (fun vectorSize => Node.sectionMetadata { s with size, vectorSize }) (number s.vectorSize)
  | typeDef t =>
    have signature (s) : P s (alone [.signature s]) (parts.signature one s) (parts.signature one' s) :=
      composes.part one_ok s rfl
    exact composes.bind (g := fun id => Node.typeDef { t with id })
      (composes.option_mapM identifier t.id) fun id =>
      composes.map (fun functype => Node.typeDef ⟨id, functype⟩) (signature t.functype)
  | func name sig locals body metadata =>
    exact composes.bind (g := (Node.func · sig locals body metadata)) (identifier name) fun name =>
      composes.bind (g := (Node.func name · locals body metadata)) (signatureRef sig) fun sig =>
        composes.map (Node.func name sig locals · metadata) (many_ok body)
  | instr id object args memArg => exact composes.map (Node.instr id object · memArg) (many_ok args)
  | block label body result =>
    exact composes.bind (g := (Node.block · body result)) (identifier label) fun label =>
      composes.map (Node.block label · result) (many_ok body)
  | loop label result body =>
    exact composes.bind (g := (Node.loop · result body)) (identifier label) fun label =>
      composes.map (Node.loop label result) (many_ok body)
  | ifElse label result consequent alternate =>
    exact composes.bind (g := (Node.ifElse · result consequent alternate)) (identifier label) fun label =>
      composes.bind (g := (Node.ifElse label result · alternate)) (many_ok consequent) fun consequent =>
        composes.map (Node.ifElse label result consequent) (many_ok alternate)
  | call i => exact composes.map Node.call (index i)
  | callIndirect sig => exact composes.map Node.callIndirect (signatureRef sig)
  | global type init name =>
    exact composes.bind (g := (Node.global · init name)) (globalType type) fun type =>
      composes.bind (g := (Node.global type · name)) (many_ok init) fun init =>
        composes.map (Node.global type init) (composes.option_mapM identifier name)
  | table t =>
    exact composes.bind (g := fun limits => Node.table { t with limits }) (limits t.limits)
      fun limits => composes.bind (g := fun name => Node.table { t with limits, name })
        (composes.option_mapM identifier t.name) fun name =>
        composes.map (fun elements => Node.table { t with limits, name, elements })
          (composes.list_mapM index t.elements)
  | memory m =>
    exact composes.bind (g := fun limits => Node.memory { m with limits }) (limits m.limits) fun limits =>
      composes.map (fun id => Node.memory ⟨limits, id⟩) (composes.option_mapM identifier m.id)
  | funcImport d =>
    exact composes.bind (g := fun id => Node.funcImport { d with id }) (identifier d.id) fun id =>
      composes.map (fun signature => Node.funcImport ⟨id, signature⟩) (signatureRef d.signature)
  | moduleImport decl =>
    have funcImport (d) :
        P d (alone [.funcImport d]) (parts.funcImport one d) (parts.funcImport one' d) :=
      composes.part one_ok d rfl
    have memory (m) : P m (alone [.memory m]) (parts.memory one m) (parts.memory one' m) :=
      composes.part one_ok m rfl
    have table (t) : P t (alone [.table t]) (parts.table one t) (parts.table one' t) :=
      composes.part one_ok t rfl
    obtain ⟨module, name, descr, id⟩ := decl
    cases descr with
    | func d => exact composes.map (fun d => Node.moduleImport ⟨module, name, .func d, id⟩) (funcImport d)
    | global t => exact composes.map (fun t => Node.moduleImport ⟨module, name, .global t, id⟩) (globalType t)
    | memory m => exact composes.map (fun m => Node.moduleImport ⟨module, name, .memory m, id⟩) (memory m)
    | table t => exact composes.map (fun t => Node.moduleImport ⟨module, name, .table t, id⟩) (table t)
  | exportDescr d => exact composes.map (fun id => Node.exportDescr { d with id }) (index d.id)
  | moduleExport e =>
    have exportDescr (d) :
        P d (alone [.exportDescr d]) (parts.exportDescr one d) (parts.exportDescr one' d) :=
      composes.part one_ok d rfl
    exact composes.map (fun descr => Node.moduleExport { e with descr }) (exportDescr e.descr)
  | start i => exact composes.map Node.start (index i)
  | elem target offset funcs =>
    exact composes.bind (g := (Node.elem · offset funcs)) (index target) fun target =>
      composes.bind (g := (Node.elem target · funcs)) (many_ok offset) fun offset =>
        composes.map (Node.elem target offset) (composes.list_mapM index funcs)
  | data target offset init =>
    have bytes (b) : P b (alone [.bytes b]) (parts.segment one b) (parts.segment one' b) :=
      composes.part one_ok b rfl
    exact composes.bind (g := (Node.data · offset init)) (index target) fun target =>
      composes.bind (g := (Node.data target · init)) (many_ok offset) fun offset =>
        composes.map (Node.data target offset) (bytes init)
  | _ => exact composes.pure _

/-- The walk below a node has a property of one walk. -/
theorem parts_self {P : {α : Type} → α → List Child → WalkM σ α → WalkM σ α → Prop} (composes : Composes P)
    (one_ok : ∀ node, P node (alone [node]) (one node) (one node))
    (many_ok : ∀ nodes, P nodes (listed nodes) (many nodes) (many nodes)) (node : Node) :
    P node node.children (Walk.parts one many node) (Walk.parts one many node) :=
  composes.parts one_ok many_ok node

end Composes

theorem bind_run {α β : Type} (m : WalkM σ α) (k : α → WalkM σ β) (p : Progress σ) :
    (m >>= k) p = (m p).bind fun r => k r.1 r.2 := rfl

/-- Visitors are called in turn until one removes the node or stops the walk. -/
theorem callAll_cons (v : Visitor σ) (vs : List (Visitor σ)) (path : Path) (state : σ) :
    callAll (v :: vs) path state =
      if (v.handle path state).1.edits.removed || (v.handle path state).1.edits.stop then
        v.handle path state
      else callAll vs (v.handle path state).1 (v.handle path state).2 := rfl

/-- What comes of the visit of a node: its path after the calls, and the state. -/
def visited (visitors : List (Visitor σ)) (ancestors : List NodeKind) (inList : Bool) (node : Node)
    (state : σ) : Path × σ :=
  callAll (visitorsOf visitors node.kind) ⟨node, ancestors, inList, .none⟩ state

/-- The node that a list keeps after a visit, if any. -/
def kept (path : Path) : List Node :=
  if path.edits.removed then [] else [path.edits.replacement.getD path.node]

variable (visitors : List (Visitor σ)) (ancestors : List NodeKind) (children : Node → WalkM σ Node)

/-- A single node is visited, and then what is kept of it is walked. -/
theorem single_run (node : Node) (state : σ) :
    single visitors ancestors children node ⟨state, false⟩ =
      let (path, state) := visited visitors ancestors false node state
      if path.edits.stop then some (path.node, ⟨state, true⟩)
      else children path.node ⟨state, false⟩ := by
  show (if (visited visitors ancestors false node state).1.edits.stop then _ else _ : WalkM σ Node) _ =
    if (visited visitors ancestors false node state).1.edits.stop then _ else _
  split <;> rfl

/-- The first node of a list is visited, its edits are taken up, and the walk goes on behind them. -/
theorem list_run (node : Node) (rest : List Node) (state : σ) :
    list visitors ancestors children (node :: rest) ⟨state, false⟩ =
      let (path, state) := visited visitors ancestors true node state
      let edits := path.edits
      if edits.stop then some (edits.before ++ kept path ++ edits.after ++ rest, ⟨state, true⟩)
      else if edits.removed then
        (list visitors ancestors children rest ⟨state, false⟩).map fun r =>
          (edits.before ++ edits.after ++ r.1, r.2)
      else
        (children (edits.replacement.getD path.node) ⟨state, false⟩).bind fun walked =>
          (list visitors ancestors children rest walked.2).map fun r =>
            (edits.before ++ [walked.1] ++ edits.after ++ r.1, r.2) := by
  let walk (path : Path) : WalkM σ (List Node) := do
    if path.edits.stop then
      halt
      return path.edits.before ++ kept path ++ path.edits.after ++ rest
    let walked ← (kept path).mapM children
    let rest ← list visitors ancestors children rest
    return path.edits.before ++ walked ++ path.edits.after ++ rest
  show walk (visited visitors ancestors true node state).1
    ⟨(visited visitors ancestors true node state).2, false⟩ = _
  generalize visited visitors ancestors true node state = result
  obtain ⟨path, state⟩ := result
  dsimp only [walk, kept]
  split
  · rfl
  · cases path.edits.removed with
    | true =>
      simp only [if_true, List.mapM_nil, pure_bind, List.append_nil]
      rw [bind_run]
      cases list visitors ancestors children rest ⟨state, false⟩ <;> rfl
    | false =>
      simp only [Bool.false_eq_true, if_false, List.mapM_cons, List.mapM_nil, pure_bind, bind_assoc]
      rw [bind_run]
      congr 1
      funext walked
      rw [bind_run]
      cases list visitors ancestors children rest walked.2 <;> rfl

/-- A stopped walk leaves a list as it is. -/
theorem list_stopped (nodes : List Node) (state : σ) :
    list visitors ancestors children nodes ⟨state, true⟩ = some (nodes, ⟨state, true⟩) := by
  cases nodes <;> rfl

end Walk

theorem Node.traverse_eq {σ : Type} (fuel : Nat) (visitors : List (Visitor σ)) (node : Node) (state : σ) :
    node.traverse fuel visitors state =
      (Walk.single visitors [] (Walk.children visitors fuel []) node ⟨state, false⟩).map fun r =>
        (r.1, r.2.state) := by
  rw [traverse]
  split
  · next walked => rw [walked, Option.map_some]
  · next missing => rw [missing, Option.map_none]

/-! ## Records -/

/-- A call of a visitor: what it saw and what it left. -/
structure Encounter where
  seen : Path
  left : Path

/-- Whether a call asked for the end of the walk. -/
def Encounter.stops (e : Encounter) : Bool := e.left.edits.stop

variable {σ : Type}

/-- A visitor that also writes down its calls. -/
def Visitor.recorded (v : Visitor σ) : Visitor (σ × List Encounter) where
  key := v.key
  handle path p :=
    let (left, state) := v.handle path p.1
    (left, state, p.2 ++ [⟨path, left⟩])

/-- Visitors that also write down their calls. -/
def recorded (visitors : List (Visitor σ)) : List (Visitor (σ × List Encounter)) :=
  visitors.map Visitor.recorded

/-- The calls of a part of a walk, between two states of being stopped: none after a stop, and none that stops
before the last. -/
inductive Orderly : Bool → List Encounter → Bool → Prop where
  | ended : Orderly true [] true
  | going {calls : List Encounter} (onward : ∀ e ∈ calls, e.stops = false) : Orderly false calls false
  | halted {calls : List Encounter} {last : Encounter} (onward : ∀ e ∈ calls, e.stops = false)
      (stops : last.stops = true) : Orderly false (calls ++ [last]) true

theorem Orderly.nil (stopped : Bool) : Orderly stopped [] stopped := by
  cases stopped with
  | true => exact .ended
  | false => exact .going fun e mem => nomatch mem

/-- Orderly calls in sequence are orderly. -/
theorem Orderly.append {before between after : Bool} {calls calls' : List Encounter}
    (first : Orderly before calls between) (rest : Orderly between calls' after) :
    Orderly before (calls ++ calls') after := by
  cases first with
  | ended => exact rest
  | halted onward stops =>
    cases rest
    rw [List.append_nil]
    exact .halted onward stops
  | going onward =>
    cases rest with
    | going onward' => exact .going fun e mem => (List.mem_append.1 mem).elim (onward e) (onward' e)
    | halted onward' stops =>
      rw [← List.append_assoc]
      exact .halted (fun e mem => (List.mem_append.1 mem).elim (onward e) (onward' e)) stops

theorem Orderly.single (e : Encounter) : Orderly false [e] e.stops := by
  cases stops : e.stops with
  | true => exact @halted [] e (fun e mem => nomatch mem) stops
  | false =>
    refine .going fun other mem => ?_
    rwa [List.mem_singleton.1 mem]

/-- Calls on one node, each of which sees what the one before left. -/
inductive Handed : Path → List Encounter → Path → Prop where
  | nil (path : Path) : Handed path [] path
  | cons {path left last : Path} {calls : List Encounter} (rest : Handed left calls last) :
      Handed path (⟨path, left⟩ :: calls) last

namespace Walk

variable {α β : Type}

/-- A result with a record follows one without: both are missing, or they agree and the record has
grown by orderly calls. -/
inductive Follows (stopped : Bool) : Option (α × Progress σ) →
    (List Encounter → Option (α × Progress (σ × List Encounter))) → Prop where
  | fails {recorded : List Encounter → Option (α × Progress (σ × List Encounter))}
      (missing : ∀ log, recorded log = none) : Follows stopped none recorded
  | grows {recorded : List Encounter → Option (α × Progress (σ × List Encounter))} {a : α}
      {p : Progress σ} {calls : List Encounter} (orderly : Orderly stopped calls p.stopped)
      (grown : ∀ log, recorded log = some (a, ⟨(p.state, log ++ calls), p.stopped⟩)) :
      Follows stopped (some (a, p)) recorded

/-- Walks in sequence follow each other when their parts do. -/
theorem Follows.bind {stopped : Bool} {plain : Option (α × Progress σ)}
    {recorded : List Encounter → Option (α × Progress (σ × List Encounter))}
    {k : α × Progress σ → Option (β × Progress σ)}
    {k' : α × Progress (σ × List Encounter) → Option (β × Progress (σ × List Encounter))}
    (first : Follows stopped plain recorded)
    (rest : ∀ a p, Follows p.stopped (k (a, p)) fun log => k' (a, ⟨(p.state, log), p.stopped⟩)) :
    Follows stopped (plain.bind k) fun log => (recorded log).bind k' := by
  cases first with
  | fails missing => exact .fails fun log => by rw [missing, Option.bind_none]
  | @grows _ a p calls orderly grown =>
    have next := rest a p
    rw [Option.bind_some]
    generalize k (a, p) = result at next ⊢
    cases next with
    | fails missing =>
      refine .fails fun log => ?_
      rw [grown, Option.bind_some]
      exact missing _
    | grows orderly' grown' =>
      refine .grows (orderly.append orderly') fun log => ?_
      rw [grown, Option.bind_some, ← List.append_assoc]
      exact grown' _

/-- A recorded walk makes orderly calls and does what the plain one does. -/
theorem Follows.of_some {stopped : Bool} {a : α} {p : Progress σ}
    {recorded : List Encounter → Option (α × Progress (σ × List Encounter))}
    (follows : Follows stopped (some (a, p)) recorded) :
    ∃ calls, Orderly stopped calls p.stopped ∧
      ∀ log, recorded log = some (a, ⟨(p.state, log ++ calls), p.stopped⟩) := by
  cases follows with
  | grows orderly grown => exact ⟨_, orderly, grown⟩

theorem Follows.map {stopped : Bool} {plain : Option (α × Progress σ)}
    {recorded : List Encounter → Option (α × Progress (σ × List Encounter))} (f : α → β)
    (first : Follows stopped plain recorded) :
    Follows stopped (plain.map fun r => (f r.1, r.2)) fun log =>
      (recorded log).map fun r => (f r.1, r.2) := by
  cases first with
  | fails missing => exact .fails fun log => by rw [missing, Option.map_none]
  | grows orderly grown => exact .grows orderly fun log => by rw [grown, Option.map_some]

theorem Follows.after {before between : Bool} {calls : List Encounter} {plain : Option (α × Progress σ)}
    {recorded : List Encounter → Option (α × Progress (σ × List Encounter))}
    (rest : Follows between plain recorded) (orderly : Orderly before calls between) :
    Follows before plain fun log => recorded (log ++ calls) := by
  cases rest with
  | fails missing => exact .fails fun log => missing _
  | grows orderly' grown =>
    exact .grows (orderly.append orderly') fun log => by rw [grown, List.append_assoc]

/-- A walk with a record follows a walk without. -/
def Records (m : WalkM (σ × List Encounter) α) (m' : WalkM σ α) : Prop :=
  ∀ state stopped, Follows stopped (m' ⟨state, stopped⟩) fun log => m ⟨(state, log), stopped⟩

/-- Recording composes along the parts of a node. -/
theorem composes_records : Composes fun {α : Type} (_ : α) (_ : List Child)
    (m : WalkM (σ × List Encounter) α) (m' : WalkM σ α) => Records m m' where
  pure a := by
    intro state stopped
    refine .grows (.nil stopped) fun log => ?_
    rw [List.append_nil]
    rfl
  bind first rest := by
    intro state stopped
    exact (first state stopped).bind fun a p => rest a p.state p.stopped

theorem visitorsOf_recorded (visitors : List (Visitor σ)) (kind : NodeKind) :
    visitorsOf (recorded visitors) kind = recorded (visitorsOf visitors kind) := by
  simp only [visitorsOf, recorded, List.map_flatMap, List.filter_map]
  rfl

/-- What the calls on one node do: the record grows by calls handed from one to the next, which end with a stop if the
last asks for one. -/
theorem callAll_recorded (vs : List (Visitor σ)) : ∀ (path : Path) (state : σ), path.edits.stop = false →
    ∃ calls, Handed path calls (callAll vs path state).1 ∧
      Orderly false calls (callAll vs path state).1.edits.stop ∧
      ∀ log, callAll (recorded vs) path (state, log) =
        ((callAll vs path state).1, (callAll vs path state).2, log ++ calls) := by
  induction vs with
  | nil =>
    intro path state going
    refine ⟨[], .nil path, ?_, ?_⟩
    · show Orderly false [] path.edits.stop
      rw [going]
      exact .nil false
    · intro log
      rw [List.append_nil]
      rfl
  | cons v vs ih =>
    intro path state going
    have step (log) : callAll (recorded (v :: vs)) path (state, log) =
        if (v.handle path state).1.edits.removed || (v.handle path state).1.edits.stop then
          ((v.handle path state).1, (v.handle path state).2, log ++ [⟨path, (v.handle path state).1⟩])
        else callAll (recorded vs) (v.handle path state).1
          ((v.handle path state).2, log ++ [⟨path, (v.handle path state).1⟩]) := rfl
    simp only [step, callAll_cons]
    generalize v.handle path state = handled
    obtain ⟨left, after⟩ := handled
    dsimp only
    -- The later visitors are called just if this one neither stops nor removes.
    by_cases last : left.edits.removed || left.edits.stop
    · simp only [last, if_true]
      exact ⟨[⟨path, left⟩], .cons (.nil left), .single ⟨path, left⟩, fun log => rfl⟩
    · have onward : left.edits.stop = false := by simp_all
      obtain ⟨calls, handed, orderly, grown⟩ := ih left after onward
      have first := Orderly.single ⟨path, left⟩
      rw [Encounter.stops, onward] at first
      simp only [last]
      refine ⟨⟨path, left⟩ :: calls, .cons handed, first.append orderly, ?_⟩
      intro log
      exact (grown _).trans (by rw [List.append_assoc]; rfl)

/-- Visiting with a record hands the node to each visitor and does what visiting does. -/
theorem visited_recorded (visitors : List (Visitor σ)) (ancestors : List NodeKind) (inList : Bool)
    (node : Node) (state : σ) : ∃ calls,
      Handed ⟨node, ancestors, inList, .none⟩ calls (visited visitors ancestors inList node state).1 ∧
      Orderly false calls (visited visitors ancestors inList node state).1.edits.stop ∧
      ∀ log, visited (recorded visitors) ancestors inList node (state, log) =
        ((visited visitors ancestors inList node state).1,
          (visited visitors ancestors inList node state).2, log ++ calls) := by
  obtain ⟨calls, handed, orderly, grown⟩ :=
    callAll_recorded (visitorsOf visitors node.kind) ⟨node, ancestors, inList, .none⟩ state rfl
  refine ⟨calls, handed, orderly, fun log => ?_⟩
  rw [visited, visitorsOf_recorded]
  exact grown log

variable {visitors : List (Visitor σ)} {ancestors : List NodeKind}
  {descend : Node → WalkM (σ × List Encounter) Node} {descend' : Node → WalkM σ Node}

theorem follows_stopped (a : α) (state : σ) :
    Follows true (some (a, ⟨state, true⟩)) fun log => some (a, ⟨(state, log), true⟩) := by
  refine .grows .ended fun log => ?_
  rw [List.append_nil]

/-- A recorded walk of a single node follows the plain one. -/
theorem records_single (below : ∀ node, Records (descend node) (descend' node)) (node : Node) :
    Records (single (recorded visitors) ancestors descend node) (single visitors ancestors descend' node) := by
  intro state stopped
  cases stopped with
  | true => exact follows_stopped node state
  | false =>
    obtain ⟨calls, _, orderly, grown⟩ := visited_recorded visitors ancestors false node state
    simp only [single_run, grown]
    generalize visited visitors ancestors false node state = result at orderly ⊢
    obtain ⟨path, state⟩ := result
    dsimp only at orderly ⊢
    cases stops : path.edits.stop with
    | true =>
      rw [stops] at orderly
      exact .grows orderly fun log => rfl
    | false =>
      rw [stops] at orderly
      exact (below path.node state false).after orderly

/-- A recorded walk of a list follows the plain one. -/
theorem records_list (below : ∀ node, Records (descend node) (descend' node)) (nodes : List Node) :
    Records (list (recorded visitors) ancestors descend nodes) (list visitors ancestors descend' nodes) := by
  induction nodes with
  | nil => exact composes_records.pure []
  | cons node rest ih =>
    intro state stopped
    cases stopped with
    | true => exact follows_stopped (node :: rest) state
    | false =>
      obtain ⟨calls, _, orderly, grown⟩ := visited_recorded visitors ancestors true node state
      simp only [list_run, grown]
      generalize visited visitors ancestors true node state = result at orderly ⊢
      obtain ⟨path, state⟩ := result
      dsimp only at orderly ⊢
      cases stops : path.edits.stop with
      | true =>
        rw [stops] at orderly
        exact .grows orderly fun log => rfl
      | false =>
        rw [stops] at orderly
        have rest_follows (p : Progress σ) := ih p.state p.stopped
        cases path.edits.removed with
        | true => exact ((rest_follows ⟨state, false⟩).map _).after orderly
        | false =>
          exact ((below _ state false).bind fun walked p => (rest_follows p).map _).after orderly

/-- A recorded walk below a node follows the plain one. -/
theorem records_children (visitors : List (Visitor σ)) : ∀ (fuel : Nat) (ancestors : List NodeKind) (node : Node),
    Records (children (recorded visitors) fuel ancestors node) (children visitors fuel ancestors node)
  | 0, _, _ => fun _ _ => .fails fun _ => rfl
  | fuel + 1, ancestors, node => by
    have below := records_children visitors fuel (node.kind :: ancestors)
    exact composes_records.parts (records_single below) (records_list below) node

end Walk

end WasmEngine
