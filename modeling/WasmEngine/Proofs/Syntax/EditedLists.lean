import WasmEngine.Proofs.Syntax.RecordedWalks

/-!
# Edited lists

A list can be walked in place: one position moves through the list while elements are replaced, erased
and inserted around it.  What the walk makes of the list is put together from what it makes of each element:
what was inserted before it, what stays of it with its children walked, and what was inserted after it.  After
a stop the elements are left as they are.
-/

namespace WasmEngine

namespace Walk

/-- Inserts nodes one after the other, the first at a position. -/
def insertAll : Nat → List Node → List Node → List Node
  | _, [], nodes => nodes
  | i, node :: more, nodes => insertAll (i + 1) more (nodes.insertIdx i node)

/-- Inserting at the length of the front puts a node between front and back. -/
theorem insertIdx_length_append (front back : List Node) (node : Node) :
    (front ++ back).insertIdx front.length node = front ++ node :: back := by
  induction front with
  | nil => rfl
  | cons first front ih => rw [List.length_cons, List.cons_append, List.insertIdx_succ_cons, ih, List.cons_append]

/-- Inserting nodes at the length of the front puts them between front and back. -/
theorem insertAll_append (front more back : List Node) :
    insertAll front.length more (front ++ back) = front ++ more ++ back := by
  induction more generalizing front with
  | nil => simp [insertAll]
  | cons node more ih =>
    have next := ih (front ++ [node])
    rw [List.length_append, List.append_assoc] at next
    rw [insertAll, insertIdx_length_append]
    simpa using next

/-- A list after the edits that were asked for at one of its elements. -/
def edited (i : Nat) (path : Path) (nodes : List Node) : List Node :=
  let nodes := nodes.set i (path.edits.replacement.getD path.node)
  let nodes := if path.edits.removed then nodes.eraseIdx i else nodes
  let nodes := insertAll i path.edits.before nodes
  let i := i + path.edits.before.length
  insertAll (if path.edits.removed then i else i + 1) path.edits.after nodes

/-- Editing at a node inserts before and after it, and keeps, replaces or removes it. -/
theorem edited_eq (front rest : List Node) (node : Node) (path : Path) :
    edited front.length path (front ++ node :: rest) =
      front ++ path.edits.before ++ kept path ++ path.edits.after ++ rest := by
  unfold edited kept
  have replaced : (front ++ node :: rest).set front.length (path.edits.replacement.getD path.node) =
      front ++ path.edits.replacement.getD path.node :: rest := by simp
  have length : front.length + path.edits.before.length = (front ++ path.edits.before).length := by simp
  rw [replaced]
  cases path.edits.removed with
  | true =>
    have erased : (front ++ path.edits.replacement.getD path.node :: rest).eraseIdx front.length =
        front ++ rest := by
      simp [List.eraseIdx_append_of_length_le]
    simp only [if_true, erased, length, insertAll_append, List.append_nil]
  | false =>
    have length' : (front ++ path.edits.before).length + 1 =
        (front ++ path.edits.before ++ [path.edits.replacement.getD path.node]).length := by
      simp [Nat.add_assoc]
    have split : front ++ path.edits.before ++ path.edits.replacement.getD path.node :: rest =
        front ++ path.edits.before ++ [path.edits.replacement.getD path.node] ++ rest := by simp
    simp only [Bool.false_eq_true, if_false, insertAll_append, length, length', split]

variable {σ : Type} (visitors : List (Visitor σ)) (ancestors : List NodeKind)
  (children : Node → WalkM σ Node)

/-- What a round does after the visit of the element at a position; `next` are the later rounds. -/
def round (next : Nat → List Node → WalkM σ (List Node)) (i : Nat) (nodes : List Node)
    (path : Path) : WalkM σ (List Node) := do
  let edits := path.edits
  let nodes := edited i path nodes
  let i := i + edits.before.length
  if edits.stop then
    halt
    return nodes
  if edits.removed then next (i + edits.after.length) nodes
  else
    match nodes[i]? with
    | none => failure
    | some node => do
      let nodes := nodes.set i (← children node)
      if (← get).stopped then return nodes
      next (i + 1 + edits.after.length) nodes

/-- Walks a list in place from a position on, for at most so many rounds. -/
def inPlace : Nat → Nat → List Node → WalkM σ (List Node)
  | 0, _, _ => failure
  | rounds + 1, i, nodes =>
    match nodes[i]? with
    | none => return nodes
    | some node => do
      let path ← visit visitors ancestors true node
      round children (inPlace rounds) i nodes path

/-- A round visits the node at its position, walks what is kept of it, and goes on past what was inserted. -/
theorem round_run (next : Nat → List Node → WalkM σ (List Node)) (front rest : List Node)
    (node : Node) (path : Path) (state : σ) :
    round children next front.length (front ++ node :: rest) path ⟨state, false⟩ =
      let edits := path.edits
      if edits.stop then
        some (front ++ edits.before ++ kept path ++ edits.after ++ rest, ⟨state, true⟩)
      else if edits.removed then
        let front := front ++ edits.before ++ edits.after
        next front.length (front ++ rest) ⟨state, false⟩
      else
        (children (edits.replacement.getD path.node) ⟨state, false⟩).bind fun walked =>
          let front := front ++ edits.before ++ [walked.1] ++ edits.after
          if walked.2.stopped then some (front ++ rest, walked.2)
          else next front.length (front ++ rest) walked.2 := by
  dsimp only [round]
  rw [edited_eq, kept]
  split
  · rfl
  · cases path.edits.removed with
    | true => simp [Nat.add_assoc]
    | false =>
      simp only [Bool.false_eq_true, if_false]
      have found : (front ++ path.edits.before ++ [path.edits.replacement.getD path.node] ++
          path.edits.after ++ rest)[front.length + path.edits.before.length]? =
          some (path.edits.replacement.getD path.node) := by simp
      have set (walked : Node) : (front ++ path.edits.before ++
          [path.edits.replacement.getD path.node] ++ path.edits.after ++ rest).set
            (front.length + path.edits.before.length) walked =
          front ++ path.edits.before ++ [walked] ++ path.edits.after ++ rest := by
        simp
      have length (walked : Node) : front.length + path.edits.before.length + 1 +
          path.edits.after.length =
          (front ++ path.edits.before ++ [walked] ++ path.edits.after).length := by
        simp only [List.length_append, List.length_singleton]
      rw [found]
      dsimp only
      rw [bind_run]
      congr 1
      funext walked
      rw [set, length walked.1]
      show (if walked.2.stopped then _ else _ : WalkM σ (List Node)) _ = _
      split <;> rfl

/-- Walked in place, a list that has been passed up to a position comes out as if its remaining
elements were walked one by one.  It takes one round for each of these and one to see the end. -/
theorem inPlace_eq_list (rest : List Node) : ∀ (front : List Node) (state : σ),
    inPlace visitors ancestors children (rest.length + 1) front.length (front ++ rest) ⟨state, false⟩ =
      (list visitors ancestors children rest ⟨state, false⟩).map fun r => (front ++ r.1, r.2) := by
  induction rest with
  | nil =>
    intro front state
    have passed : (front ++ [])[front.length]? = none := by simp
    rw [List.length_nil, inPlace, passed, List.append_nil]
    show _ = some (front ++ [], _)
    rw [List.append_nil]
    rfl
  | cons node rest ih =>
    intro front state
    have found : (front ++ node :: rest)[front.length]? = some node := by simp
    rw [List.length_cons, inPlace, found, list_run]
    show round children _ _ _ (visited visitors ancestors true node state).1
      ⟨(visited visitors ancestors true node state).2, false⟩ = _
    rw [round_run]
    generalize visited visitors ancestors true node state = result
    obtain ⟨path, state⟩ := result
    dsimp only
    split
    · simp
    · split
      · rw [ih, Option.map_map]
        congr 1
        funext r
        simp
      · rw [Option.map_bind]
        congr 1
        funext walked
        obtain ⟨node, state, stopped⟩ := walked
        cases stopped with
        | true => simp [list_stopped]
        | false =>
          dsimp only [Function.comp_apply]
          rw [if_neg Bool.false_ne_true, ih, Option.map_map]
          congr 1
          funext r
          simp

end Walk

/-! ## What is made of each element -/

/-- What comes of one element of a list: its path after the calls on it, what stays of it, and the calls
below that. -/
structure Turn where
  node : Node
  path : Path
  calls : List Encounter
  walked : List Node
  below : List Encounter

namespace Turn

/-- The nodes that stand in the place of the element afterwards. -/
def result (turn : Turn) : List Node :=
  turn.path.edits.before ++ turn.walked ++ turn.path.edits.after

/-- The calls of the turn in their order. -/
def log (turn : Turn) : List Encounter := turn.calls ++ turn.below

end Turn

namespace Walk

variable {σ : Type}

section Turns

variable (visitors : List (Visitor σ)) (ancestors : List NodeKind)
  (descend : Node → WalkM (σ × List Encounter) Node)

/-- How a turn goes from a state on: it stops the walk, it removes the element, or it walks what is below
the element or its replacement. -/
inductive Taken (state : σ) : Turn → Progress σ → Prop where
  | stopped {node : Node} {path : Path} {middle : σ} {calls : List Encounter}
      (visit : visited (recorded visitors) ancestors true node (state, []) = (path, middle, calls))
      (stops : path.edits.stop = true) :
      Taken state ⟨node, path, calls, kept path, []⟩ ⟨middle, true⟩
  | removed {node : Node} {path : Path} {middle : σ} {calls : List Encounter}
      (visit : visited (recorded visitors) ancestors true node (state, []) = (path, middle, calls))
      (onward : path.edits.stop = false) (removed : path.edits.removed = true) :
      Taken state ⟨node, path, calls, [], []⟩ ⟨middle, false⟩
  | stays {node walked : Node} {path : Path} {middle : σ} {calls below : List Encounter}
      {after : Progress σ}
      (visit : visited (recorded visitors) ancestors true node (state, []) = (path, middle, calls))
      (onward : path.edits.stop = false) (stays : path.edits.removed = false)
      (walk : descend (path.edits.replacement.getD path.node) ⟨(middle, []), false⟩ =
        some (walked, ⟨(after.state, below), after.stopped⟩)) :
      Taken state ⟨node, path, calls, [walked], below⟩ after

/-- Turns that follow each other until one stops or there are no more. -/
inductive Turns : σ → List Turn → Progress σ → Prop where
  | done (state : σ) : Turns state [] ⟨state, false⟩
  | last {state : σ} {turn : Turn} {after : Progress σ}
      (taken : Taken visitors ancestors descend state turn after) (stops : after.stopped = true) :
      Turns state [turn] after
  | next {state : σ} {turn : Turn} {turns : List Turn} {between after : Progress σ}
      (taken : Taken visitors ancestors descend state turn between)
      (onward : between.stopped = false) (rest : Turns between.state turns after) :
      Turns state (turn :: turns) after

/-- A walk of a list from a state, taken apart into its turns and the elements that a stop leaves
unvisited.  With a record, the walk adds the calls of the turns to it. -/
structure TakenApart (nodes : List Node) (state : σ) (result : List Node) (after : Progress σ)
    (turns : List Turn) (unvisited : List Node) : Prop where
  taken : Turns visitors ancestors descend state turns after
  elements : turns.map Turn.node ++ unvisited = nodes
  whole : after.stopped = false → unvisited = []
  handed : ∀ turn ∈ turns, Handed ⟨turn.node, ancestors, true, .none⟩ turn.calls turn.path
  joined : result = turns.flatMap Turn.result ++ unvisited
  orderly : Orderly false (turns.flatMap Turn.log) after.stopped
  record : ∀ log, list (recorded visitors) ancestors descend nodes ⟨(state, log), false⟩ =
    some (result, ⟨(after.state, log ++ turns.flatMap Turn.log), after.stopped⟩)

end Turns

variable {visitors : List (Visitor σ)} {ancestors : List NodeKind}
  {descend : Node → WalkM (σ × List Encounter) Node} {descend' : Node → WalkM σ Node}

/-- The walk of a list takes a turn with its first element and goes on from there. -/
theorem taken_of_list (below : ∀ node, Records (descend node) (descend' node)) {node : Node}
    {rest result : List Node} {state : σ} {after : Progress σ}
    (walked : list visitors ancestors descend' (node :: rest) ⟨state, false⟩ = some (result, after)) :
    ∃ turn between others, Taken visitors ancestors descend state turn between ∧ turn.node = node ∧
      Handed ⟨node, ancestors, true, .none⟩ turn.calls turn.path ∧
      Orderly false turn.log between.stopped ∧
      list visitors ancestors descend' rest between = some (others, after) ∧
      result = turn.result ++ others ∧
      ∀ log, list (recorded visitors) ancestors descend (node :: rest) ⟨(state, log), false⟩ =
        (list (recorded visitors) ancestors descend rest
          ⟨(between.state, log ++ turn.log), between.stopped⟩).map fun r => (turn.result ++ r.1, r.2) := by
  obtain ⟨calls, handed, orderly, grown⟩ := visited_recorded visitors ancestors true node state
  have visit := grown []
  have record (log) := list_run (recorded visitors) ancestors descend node rest (state, log)
  simp only [grown] at record
  rw [list_run] at walked
  generalize visited visitors ancestors true node state = met at walked visit record handed orderly
  obtain ⟨path, middle⟩ := met
  dsimp only at walked visit record handed orderly
  cases stops : path.edits.stop with
  | true =>
    simp only [if_pos stops] at walked record
    rw [stops] at orderly
    obtain ⟨⟩ := walked
    refine ⟨⟨node, path, calls, kept path, []⟩, ⟨middle, true⟩, rest, .stopped visit stops, rfl, handed,
      orderly.append .ended, list_stopped .., rfl, fun log => ?_⟩
    rw [record, list_stopped, Turn.log, List.append_nil]
    rfl
  | false =>
    have onward : ¬ path.edits.stop = true := by rw [stops]; exact Bool.false_ne_true
    simp only [if_neg onward] at walked record
    rw [stops] at orderly
    cases removed : path.edits.removed with
    | true =>
      simp only [if_pos removed] at walked record
      obtain ⟨⟨others, after⟩, walkedRest, ⟨⟩⟩ := Option.map_eq_some_iff.1 walked
      refine ⟨⟨node, path, calls, [], []⟩, ⟨middle, false⟩, others, .removed visit stops removed, rfl,
        handed, orderly.append (.nil false), walkedRest, by simp [Turn.result], fun log => ?_⟩
      rw [record, Turn.log, Turn.result, List.append_nil, List.append_nil]
    | false =>
      have stays : ¬ path.edits.removed = true := by rw [removed]; exact Bool.false_ne_true
      simp only [if_neg stays] at walked record
      obtain ⟨⟨kept, between⟩, walkedBelow, walkedOn⟩ := Option.bind_eq_some_iff.1 walked
      obtain ⟨⟨others, after⟩, walkedRest, ⟨⟩⟩ := Option.map_eq_some_iff.1 walkedOn
      have follows := below (path.edits.replacement.getD path.node) middle false
      rw [walkedBelow] at follows
      obtain ⟨inner, orderlyBelow, grownBelow⟩ := follows.of_some
      refine ⟨⟨node, path, calls, [kept], inner⟩, between, others,
        .stays visit stops removed (grownBelow []), rfl, handed, orderly.append orderlyBelow, walkedRest,
        rfl, fun log => ?_⟩
      rw [record, grownBelow, Option.bind_some, Turn.log, ← List.append_assoc]
      rfl

/-- A list that is walked to its end is taken apart into the rounds of its nodes. -/
theorem takenApart_of_list (below : ∀ node, Records (descend node) (descend' node))
    (nodes : List Node) : ∀ (state : σ) (result : List Node) (after : Progress σ),
      list visitors ancestors descend' nodes ⟨state, false⟩ = some (result, after) →
      ∃ turns unvisited,
        TakenApart visitors ancestors descend nodes state result after turns unvisited := by
  induction nodes with
  | nil =>
    intro state result after walked
    obtain ⟨⟩ := walked
    refine ⟨[], [], .done state, rfl, fun _ => rfl, (fun turn mem => nomatch mem), rfl, .nil false,
      fun log => ?_⟩
    rw [List.flatMap_nil, List.append_nil]
    rfl
  | cons node rest ih =>
    intro state result after walked
    obtain ⟨turn, between, others, taken, rfl, handed, orderly, walkedRest, rfl, record⟩ :=
      taken_of_list below walked
    obtain ⟨middle, stopped⟩ := between
    cases stopped with
    | true =>
      rw [list_stopped] at walkedRest
      obtain ⟨⟩ := walkedRest
      refine ⟨[turn], rest, .last taken rfl, rfl, (fun onward => nomatch onward), ?_, ?_, ?_,
        fun log => ?_⟩
      · intro other mem
        rwa [List.mem_singleton.1 mem]
      · rw [List.flatMap_singleton]
      · rwa [List.flatMap_singleton]
      · rw [record, list_stopped, List.flatMap_singleton]
        rfl
    | false =>
      obtain ⟨turns, unvisited, apart⟩ := ih middle others after walkedRest
      refine ⟨turn :: turns, unvisited, .next taken rfl apart.taken, ?_, apart.whole, ?_, ?_, ?_, ?_⟩
      · rw [List.map_cons, List.cons_append, apart.elements]
      · intro other mem
        rcases List.mem_cons.1 mem with rfl | mem
        · exact handed
        · exact apart.handed other mem
      · rw [apart.joined, List.flatMap_cons, List.append_assoc]
      · exact orderly.append apart.orderly
      · intro log
        rw [record, apart.record, List.flatMap_cons, List.append_assoc]
        rfl

/-! ### What is visited below a node -/

/-- The node below which a walk goes on after a visit that did not stop it, unless the node was removed from its
list. -/
def onward (inList : Bool) (path : Path) : Option Node :=
  if inList then (kept path).head? else some path.node

/-- The calls of a walk that passes children in their order, and whether it was stopped.  Each child is handed to its
visitors; then the walk goes to the children of what stays of it, and to no other node below it. -/
inductive Passes : List NodeKind → List Child → List Encounter → Bool → Prop where
  | done (ancestors : List NodeKind) : Passes ancestors [] [] false
  | stops {ancestors : List NodeKind} {child : Child} {rest : List Child} {calls : List Encounter} {path : Path}
      (handed : Handed ⟨child.node, ancestors, child.inList, .none⟩ calls path) (stop : path.edits.stop = true) :
      Passes ancestors (child :: rest) calls true
  | removed {ancestors : List NodeKind} {child : Child} {rest : List Child} {calls later : List Encounter}
      {path : Path} {stopped : Bool}
      (handed : Handed ⟨child.node, ancestors, child.inList, .none⟩ calls path) (going : path.edits.stop = false)
      (gone : onward child.inList path = none) (onward : Passes ancestors rest later stopped) :
      Passes ancestors (child :: rest) (calls ++ later) stopped
  | stays {ancestors : List NodeKind} {child : Child} {rest : List Child} {calls inner later : List Encounter}
      {path : Path} {node : Node} {stopped : Bool}
      (handed : Handed ⟨child.node, ancestors, child.inList, .none⟩ calls path) (going : path.edits.stop = false)
      (stays : onward child.inList path = some node)
      (inside : Passes (node.kind :: ancestors) node.children inner false)
      (onward : Passes ancestors rest later stopped) :
      Passes ancestors (child :: rest) (calls ++ (inner ++ later)) stopped
  | stopsBelow {ancestors : List NodeKind} {child : Child} {rest : List Child} {calls inner : List Encounter}
      {path : Path} {node : Node}
      (handed : Handed ⟨child.node, ancestors, child.inList, .none⟩ calls path) (going : path.edits.stop = false)
      (stays : onward child.inList path = some node)
      (inside : Passes (node.kind :: ancestors) node.children inner true) :
      Passes ancestors (child :: rest) (calls ++ inner) true

/-- Children that are passed without a stop, and more of them after those. -/
theorem Passes.append {ancestors : List NodeKind} {below beyond : List Child} {calls later : List Encounter}
    {stopped : Bool} (first : Passes ancestors below calls false) (rest : Passes ancestors beyond later stopped) :
    Passes ancestors (below ++ beyond) (calls ++ later) stopped := by
  generalize going : false = before at first
  induction first with
  | done => exact rest
  | stops => cases going
  | stopsBelow => cases going
  | removed handed on gone _ ih =>
    rw [List.cons_append, List.append_assoc]
    exact .removed handed on gone (ih rest going)
  | stays handed on stays inside _ _ ih =>
    rw [List.cons_append, List.append_assoc, List.append_assoc]
    exact .stays handed on stays inside (ih rest going)

/-- After a stop no more children are passed. -/
theorem Passes.stopped_append {ancestors : List NodeKind} {below beyond : List Child} {calls : List Encounter}
    (first : Passes ancestors below calls true) : Passes ancestors (below ++ beyond) calls true := by
  generalize ended : true = stopped at first
  induction first with
  | done => cases ended
  | stops handed stop => exact .stops handed stop
  | stopsBelow handed on stays inside => exact .stopsBelow handed on stays inside
  | removed handed on gone _ ih => exact .removed handed on gone (ih ended)
  | stays handed on stays inside _ _ ih => exact .stays handed on stays inside (ih ended)

/-- A part of a walk passes children, and writes down the calls on the way.  After a stop it does nothing. -/
structure Meets {α : Type} (ancestors : List NodeKind) (below : List Child) (m : WalkM (σ × List Encounter) α) :
    Prop where
  still : ∀ state a after, m ⟨state, true⟩ = some (a, after) → after = ⟨state, true⟩
  passes : ∀ state log a after, m ⟨(state, log), false⟩ = some (a, after) →
    ∃ calls, after.state.2 = log ++ calls ∧ Passes ancestors below calls after.stopped

/-- Every encounter of a walk is with a node that the walk may meet. -/
theorem composes_meets (ancestors : List NodeKind) :
    Composes fun {α : Type} (_ : α) (below : List Child) (m _ : WalkM (σ × List Encounter) α) =>
      Meets ancestors below m where
  pure a :=
    ⟨fun state a after walked => by cases walked; rfl, fun state log a after walked => by
      cases walked
      exact ⟨[], (List.append_nil log).symm, .done ancestors⟩⟩
  bind first rest := by
    refine ⟨fun state a after walked => ?_, fun state log a after walked => ?_⟩
    · obtain ⟨⟨b, between⟩, here, there⟩ := Option.bind_eq_some_iff.1 walked
      obtain rfl := first.still _ _ _ here
      exact (rest b).still _ _ _ there
    · obtain ⟨⟨b, between⟩, here, there⟩ := Option.bind_eq_some_iff.1 walked
      obtain ⟨calls, grown, passes⟩ := first.passes _ _ _ _ here
      obtain ⟨⟨state', log'⟩, stopped⟩ := between
      cases stopped with
      | true =>
        obtain rfl := (rest b).still _ _ _ there
        exact ⟨calls, grown, passes.stopped_append⟩
      | false =>
        obtain ⟨later, grown', passes'⟩ := (rest b).passes _ _ _ _ there
        refine ⟨calls ++ later, ?_, passes.append passes'⟩
        rw [grown', ← List.append_assoc, ← grown]

section Meets

variable {visitors : List (Visitor σ)} {ancestors : List NodeKind} {descend : Node → WalkM (σ × List Encounter) Node}

/-- A single node is met, and then what is below it. -/
theorem meets_single (below : ∀ node : Node, Meets (node.kind :: ancestors) node.children (descend node))
    (node : Node) : Meets ancestors (Child.alone [node]) (single (recorded visitors) ancestors descend node) := by
  refine ⟨fun state a after walked => by cases walked; rfl, fun state log a after walked => ?_⟩
  obtain ⟨calls, handed, -, grown⟩ := visited_recorded visitors ancestors false node state
  rw [single_run, grown] at walked
  generalize visited visitors ancestors false node state = met at walked handed
  obtain ⟨path, middle⟩ := met
  dsimp only at walked handed
  split at walked
  · next stop =>
    cases walked
    exact ⟨calls, rfl, .stops handed stop⟩
  · next going =>
    obtain ⟨inner, grown', inside⟩ := (below path.node).passes _ _ _ _ walked
    refine ⟨calls ++ inner, by rw [grown', List.append_assoc], ?_⟩
    have going := Bool.eq_false_iff.2 going
    cases stopped : after.stopped with
    | true =>
      rw [stopped] at inside
      exact .stopsBelow handed going rfl inside
    | false =>
      rw [stopped] at inside
      have passed : Passes ancestors [⟨node, false⟩] _ false := .stays handed going rfl inside (.done ancestors)
      rwa [List.append_nil] at passed

/-- The nodes of a list are met, each with what is below it. -/
theorem meets_list (below : ∀ node : Node, Meets (node.kind :: ancestors) node.children (descend node))
    (nodes : List Node) : Meets ancestors (Child.listed nodes) (list (recorded visitors) ancestors descend nodes) := by
  induction nodes with
  | nil => exact (composes_meets ancestors).pure []
  | cons node rest ih =>
    refine ⟨fun state a after walked => by rw [list_stopped] at walked; cases walked; rfl,
      fun state log a after walked => ?_⟩
    obtain ⟨calls, handed, -, grown⟩ := visited_recorded visitors ancestors true node state
    rw [list_run, grown] at walked
    generalize visited visitors ancestors true node state = met at walked handed
    obtain ⟨path, middle⟩ := met
    dsimp only at walked handed
    split at walked
    · next stop =>
      cases walked
      exact ⟨calls, rfl, .stops handed stop⟩
    next going =>
    have going := Bool.eq_false_iff.2 going
    split at walked
    · next removed =>
      obtain ⟨⟨others, end_⟩, walkedRest, ⟨⟩⟩ := Option.map_eq_some_iff.1 walked
      obtain ⟨later, grown', passes⟩ := ih.passes _ _ _ _ walkedRest
      have gone : onward true path = none := by
        unfold onward kept
        rw [removed]
        rfl
      exact ⟨calls ++ later, by rw [grown', List.append_assoc], .removed handed going gone passes⟩
    · next removed =>
      obtain ⟨⟨walkedNode, between⟩, walkedBelow, walkedOn⟩ := Option.bind_eq_some_iff.1 walked
      obtain ⟨⟨others, end_⟩, walkedRest, ⟨⟩⟩ := Option.map_eq_some_iff.1 walkedOn
      obtain ⟨inner, grown', inside⟩ := (below _).passes _ _ _ _ walkedBelow
      have stays : onward true path = some (path.edits.replacement.getD path.node) := by
        unfold onward kept
        rw [Bool.eq_false_iff.2 removed]
        rfl
      obtain ⟨⟨state', log'⟩, stopped⟩ := between
      obtain rfl : log' = log ++ calls ++ inner := grown'
      cases stopped with
      | true =>
        obtain rfl := ih.still _ _ _ walkedRest
        exact ⟨calls ++ inner, List.append_assoc _ _ _, .stopsBelow handed going stays inside⟩
      | false =>
        obtain ⟨later, grown'', passes⟩ := ih.passes _ _ _ _ walkedRest
        refine ⟨calls ++ (inner ++ later), ?_, .stays handed going stays inside passes⟩
        rw [grown'']
        simp only [List.append_assoc]

/-- Below a node its children are visited, and the children of what stays of them. -/
theorem meets_children (visitors : List (Visitor σ)) : ∀ (fuel : Nat) (ancestors : List NodeKind) (node : Node),
    Meets (node.kind :: ancestors) node.children (children (recorded visitors) fuel ancestors node)
  | 0, _, _ => ⟨nofun, nofun⟩
  | fuel + 1, ancestors, node => by
    have below := meets_children visitors fuel (node.kind :: ancestors)
    exact (composes_meets _).parts_self (meets_single below) (meets_list below) node

end Meets

/-! ### Ends -/

/-- A part of a walk that comes to an end. -/
def Ends {α : Type} (m : WalkM σ α) : Prop := ∀ p, (m p).isSome = true

/-- Walks in sequence end when both parts do. -/
theorem Ends.bind {α β : Type} {m : WalkM σ α} {k : α → WalkM σ β} (first : Ends m)
    (rest : ∀ a, Ends (k a)) : Ends (m >>= k) := by
  intro p
  obtain ⟨⟨a, q⟩, walked⟩ := Option.isSome_iff_exists.1 (first p)
  rw [bind_run, walked]
  exact rest a q

/-- A walk of children of few enough levels ends, if the walk of each does. -/
theorem composes_ends (levels : Nat) :
    Composes fun {α : Type} (_ : α) (l : List Child) (m _ : WalkM σ α) =>
      (∀ child ∈ l, child.node.Within levels) → Ends m where
  pure _ _ _ := rfl
  bind {α β a below beyond m m' g k k'} first rest within := by
    refine (first fun child inside => ?_).bind fun b => rest b fun child inside => ?_
    · exact within child (List.mem_append_left _ inside)
    · exact within child (List.mem_append_right _ inside)

end Walk

/-- A path whose node and replacement have at most so many levels. -/
structure Path.Fits (levels : Nat) (path : Path) : Prop where
  node : path.node.Within levels
  replacement : ∀ node ∈ path.edits.replacement, node.Within levels

/-- A visitor that puts nothing in the place of a node that has more levels. -/
def Visitor.Shallow {σ : Type} (v : Visitor σ) : Prop :=
  ∀ levels path state, path.Fits levels → (v.handle path state).1.Fits levels

/-- What a fitting path keeps of its node has few enough levels. -/
theorem Path.Fits.kept {path : Path} {levels : Nat} (fits : path.Fits levels) :
    (path.edits.replacement.getD path.node).Within levels := by
  cases replaced : path.edits.replacement with
  | none => exact fits.node
  | some node => exact fits.replacement node replaced

namespace Walk

variable {σ : Type} {visitors : List (Visitor σ)} {ancestors : List NodeKind}
  {descend : Node → WalkM σ Node} {levels : Nat}

/-- Visitors that replace nodes by shallow ones keep a path fitting. -/
theorem fits_callAll {vs : List (Visitor σ)} (shallow : ∀ v ∈ vs, v.Shallow) :
    ∀ (path : Path) (state : σ), path.Fits levels → (callAll vs path state).1.Fits levels := by
  induction vs with
  | nil => exact fun path state fits => fits
  | cons v vs ih =>
    intro path state fits
    have left := shallow v List.mem_cons_self levels path state fits
    rw [callAll_cons]
    split
    · exact left
    · exact ih (fun v mem => shallow v (List.mem_cons_of_mem _ mem)) _ _ left

/-- A visited node is left with a path that fits. -/
theorem fits_visited (shallow : ∀ v ∈ visitors, v.Shallow) {node : Node} (within : node.Within levels)
    (inList : Bool) (state : σ) : (visited visitors ancestors inList node state).1.Fits levels := by
  refine fits_callAll (fun v mem => ?_) _ _ ⟨within, fun node mem => nomatch mem⟩
  obtain ⟨key, _, mem⟩ := List.mem_flatMap.1 mem
  exact shallow v (List.mem_filter.1 mem).1

/-- A walk of a single node ends, if the walk below does. -/
theorem ends_single (shallow : ∀ v ∈ visitors, v.Shallow)
    (below : ∀ node : Node, node.Within levels → Ends (descend node)) {node : Node}
    (within : node.Within levels) : Ends (single visitors ancestors descend node) := by
  intro p
  obtain ⟨state, stopped⟩ := p
  cases stopped with
  | true => rfl
  | false =>
    have fits : (visited visitors ancestors false node state).1.Fits levels :=
      fits_visited shallow within false state
    rw [single_run]
    dsimp only
    split
    · rfl
    · exact below _ fits.node _

/-- The walk of a list ends as soon as the walks below what stays of its elements end. -/
theorem ends_list {nodes : List Node}
    (below : ∀ node ∈ nodes, ∀ state,
      let path := (visited visitors ancestors true node state).1
      path.edits.stop = false → path.edits.removed = false →
        Ends (descend (path.edits.replacement.getD path.node))) :
    Ends (list visitors ancestors descend nodes) := by
  induction nodes with
  | nil => exact fun p => rfl
  | cons node rest ih =>
    have ends := ih fun node mem => below node (List.mem_cons_of_mem _ mem)
    intro p
    obtain ⟨state, stopped⟩ := p
    cases stopped with
    | true => rfl
    | false =>
      have stays := below node List.mem_cons_self state
      rw [list_run]
      generalize visited visitors ancestors true node state = met at stays
      obtain ⟨path, middle⟩ := met
      dsimp only at stays ⊢
      split
      · rfl
      · next onward =>
        split
        · rw [Option.isSome_map]
          exact ends _
        · next kept =>
          have inner := stays (Bool.eq_false_iff.2 onward) (Bool.eq_false_iff.2 kept) ⟨middle, false⟩
          obtain ⟨⟨walked, after⟩, eq⟩ := Option.isSome_iff_exists.1 inner
          rw [eq, Option.bind_some, Option.isSome_map]
          exact ends after

/-- A walk below a node of few enough levels ends. -/
theorem ends_children (shallow : ∀ v ∈ visitors, v.Shallow) :
    ∀ (levels : Nat) (ancestors : List NodeKind) (node : Node), node.Within levels →
      Ends (children visitors levels ancestors node)
  | 0, _, _, within => within.elim
  | levels + 1, ancestors, node, within => by
    have ih := ends_children shallow levels (node.kind :: ancestors)
    refine (composes_ends levels).parts_self ?_ ?_ node within
    · intro child within
      exact ends_single shallow ih (within _ (List.mem_singleton_self _))
    · intro nodes within
      refine ends_list fun child mem state _ _ => ih _ (Path.Fits.kept ?_)
      exact fits_visited shallow (within ⟨child, true⟩ (List.mem_map_of_mem mem)) true state

/-- The walk of a list of nodes, whatever the visitors do.  Done in place it takes one round for each
element and one to see the end, and it makes the same of the list.  It ends as soon as the walks below what
stays of the elements end.  Its result is put together from the turns with the elements, each of which comes
once and in order; the calls are those of the turns, and a call that stops the walk is the last.  Below a node, be it
an element or a replacement, the calls are on its children and on those of what stays of them.  No call
follows a stop in a whole walk either, and this one ends if no replacement has more levels than the node whose
place it takes. -/
theorem list_edits (visitors : List (Visitor σ)) (fuel : Nat) (ancestors : List NodeKind)
    (nodes : List Node) (state : σ) :
    (inPlace visitors ancestors (children visitors fuel ancestors) (nodes.length + 1) 0 nodes
        ⟨state, false⟩ =
      list visitors ancestors (children visitors fuel ancestors) nodes ⟨state, false⟩) ∧
    ((∀ node ∈ nodes, ∀ state,
      let path := (visited visitors ancestors true node state).1
      path.edits.stop = false → path.edits.removed = false →
        Ends (children visitors fuel ancestors (path.edits.replacement.getD path.node))) →
      Ends (list visitors ancestors (children visitors fuel ancestors) nodes)) ∧
    (∀ result after,
      list visitors ancestors (children visitors fuel ancestors) nodes ⟨state, false⟩ =
        some (result, after) →
      ∃ turns unvisited, TakenApart visitors ancestors (children (recorded visitors) fuel ancestors) nodes
        state result after turns unvisited) ∧
    (∀ node middle result after,
      children (recorded visitors) fuel ancestors node ⟨(middle, []), false⟩ = some (result, after) →
      Passes (node.kind :: ancestors) node.children after.state.2 after.stopped) ∧
    (∀ node result after, Node.traverse fuel visitors node state = some (result, after) →
      ∃ log stopped, Node.traverse fuel (recorded visitors) node (state, []) = some (result, after, log) ∧
        Orderly false log stopped) ∧
    ((∀ v ∈ visitors, v.Shallow) → ∀ node : Node, node.Within fuel →
      (node.traverse fuel visitors state).isSome) := by
  refine ⟨?_, ends_list, ?_, ?_, ?_, ?_⟩
  · have inPlace := inPlace_eq_list visitors ancestors (children visitors fuel ancestors) nodes [] state
    rw [List.nil_append, List.length_nil] at inPlace
    rw [inPlace]
    exact Option.map_id'
  · intro result after walked
    exact takenApart_of_list (records_children visitors fuel ancestors) nodes state result after walked
  · intro node middle result after walked
    obtain ⟨calls, grown, passes⟩ := (meets_children visitors fuel ancestors node).passes _ _ _ _ walked
    rw [grown, List.nil_append]
    exact passes
  · intro node result after walked
    rw [Node.traverse_eq] at walked ⊢
    obtain ⟨⟨result, progress⟩, whole, ⟨⟩⟩ := Option.map_eq_some_iff.1 walked
    have follows : Follows false (single visitors [] (children visitors fuel []) node ⟨state, false⟩) _ :=
      records_single (records_children visitors fuel []) node state false
    rw [whole] at follows
    obtain ⟨calls, orderly, grown⟩ := follows.of_some
    refine ⟨calls, progress.stopped, ?_, orderly⟩
    rw [grown, Option.map_some, List.nil_append]
  · intro shallow node within
    rw [Node.traverse_eq, Option.isSome_map]
    exact ends_single shallow (ends_children shallow fuel []) within _

end Walk

/-- An instruction without arguments. -/
def Node.plain (id : String) : Node := .instr id none [] none

/-- A block without a label of its own. -/
def Node.blockOf (body : List Node) : Node := .block (.synthesized "block") body none

/-- A visitor that counts its calls.  It removes `nop` and puts `return` before it, puts a block in the place of
`drop`, and at `select` it stops the walk and puts `return` after it. -/
def Visitor.swapping : Visitor Nat where
  key := .kind .instr
  handle path count :=
    match path.node with
    | .instr "nop" _ _ _ =>
      ({ path with edits := { path.edits with removed := true, before := [.plain "return"] } }, count + 1)
    | .instr "drop" _ _ _ =>
      ({ path with edits := { path.edits with
        replacement := some (.blockOf [.plain "unreachable", .plain "select", .plain "nop"]) } }, count + 1)
    | .instr "select" _ _ _ =>
      ({ path with edits := { path.edits with stop := true, after := [.plain "return"] } }, count + 1)
    | _ => (path, count + 1)

/-- Of four elements the first is removed without its argument, the second is replaced by a block in which the walk
stops, and the last two are not visited. -/
theorem Walk.list_edits_swapping : ∃ turns unvisited,
    TakenApart [.swapping] [] (children (recorded [.swapping]) 3 [])
      [.instr "nop" none [.plain "select"] none, .instr "drop" none [.plain "nop"] none, .plain "nop", .plain "drop"] 0
      [.plain "return", .blockOf [.plain "unreachable", .plain "select", .plain "return", .plain "nop"],
        .plain "nop", .plain "drop"] ⟨4, true⟩ turns unvisited :=
  (list_edits [.swapping] 3 [] _ 0).2.2.1 _ _ rfl

/-! ### Walks without an end, and nodes that change in place -/

/-- A visitor that puts a block with `nop` in it in the place of each plain instruction. -/
def Visitor.wrapping : Visitor Unit where
  key := .kind .instr
  handle path state :=
    ({ path with edits := { path.edits with replacement := some (.blockOf [.plain "nop"]) } }, state)

/-- The instruction in the block is replaced as well, and so on at every depth. -/
theorem Walk.list_wrapping (fuel : Nat) : ∀ (ancestors : List NodeKind) (state : Unit),
    list [.wrapping] ancestors (children [.wrapping] fuel ancestors) [.plain "nop"] ⟨state, false⟩ = none := by
  induction fuel with
  | zero => exact fun _ _ => rfl
  | succ fuel ih =>
    intro ancestors state
    have wrapped : list [.wrapping] ancestors (children [.wrapping] (fuel + 1) ancestors) [.plain "nop"]
        ⟨state, false⟩ =
        (children [.wrapping] (fuel + 1) ancestors (.blockOf [.plain "nop"]) ⟨state, false⟩).bind fun walked =>
          (list [.wrapping] ancestors (children [.wrapping] (fuel + 1) ancestors) [] walked.2).map fun r =>
            ([walked.1] ++ r.1, r.2) := list_run ..
    have below : children [.wrapping] (fuel + 1) ancestors (.blockOf [.plain "nop"]) ⟨state, false⟩ = none := by
      cases fuel with
      | zero => rfl
      | succ fuel =>
        have inside := ih (.block :: ancestors) state
        show ((list [.wrapping] (.block :: ancestors)
          (children [.wrapping] (fuel + 1) (.block :: ancestors)) [.plain "nop"] ⟨state, false⟩).bind _) = none
        rw [inside]
        rfl
    rw [wrapped, below, Option.bind_none]

/-- A visitor that moves the start of each section by five bytes. -/
def Visitor.shifting : Visitor Unit where
  key := .kind .sectionMetadata
  handle path state := ((path.shift 5).toOption.getD path, state)

/-- The metadata of an empty section at a position. -/
def sectionAt (startOffset : Nat) : Node :=
  .sectionMetadata ⟨"type", startOffset, .ofInt 0, .ofInt 0⟩

/-- The walk of one plain instruction does not end with a visitor that puts a block with such an instruction in its
place, whatever the depth that is allowed; and an element for which no edit was asked is changed by its visitor. -/
theorem Walk.list_unended :
    (∀ fuel, list [.wrapping] [] (children [.wrapping] fuel []) [.plain "nop"] ⟨(), false⟩ = none) ∧
      list [.shifting] [] (children [.shifting] 2 []) [sectionAt 8] ⟨(), false⟩ = some ([sectionAt 13], ⟨(), false⟩) :=
  ⟨fun fuel => list_wrapping fuel [] (), rfl⟩

end WasmEngine
