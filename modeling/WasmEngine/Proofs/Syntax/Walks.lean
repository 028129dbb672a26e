import Mathlib.Data.List.FinRange
import WasmEngine.Proofs.Syntax.RecordedWalks

/-!
# Walks without edits

Visitors that only look are called on every node of a tree, parents first and children in their
order.  On one node the calls follow the keys, and visitors of one key are called in the order of their
registration.  The tree stays as it was.
-/

namespace WasmEngine

/-- A node of a tree with its ancestors, nearest first, and whether it stands in a list. -/
structure NodePlace where
  node : Node
  ancestors : List Node
  inList : Bool

/-- What a visitor sees of a place when nothing has been asked for. -/
def NodePlace.path (place : NodePlace) : Path :=
  ⟨place.node, place.ancestors.map Node.kind, place.inList, .none⟩

namespace Node

/-- The places of a tree that hangs below some ancestors: its root, then those below each child. -/
def placesBelow (ancestors : List Node) (inList : Bool) (node : Node) : List NodePlace :=
  ⟨node, ancestors, inList⟩ :: node.children.attach.flatMap fun ⟨child, _⟩ =>
    child.node.placesBelow (node :: ancestors) child.inList
termination_by sizeOf node
decreasing_by exact sizeOf_lt_of_mem_children ‹_›

/-- The places of a tree in pre-order. -/
def preorder (node : Node) : List NodePlace := node.placesBelow [] false

/-- The places below a node are its own and those below its children. -/
theorem placesBelow_eq (ancestors : List Node) (inList : Bool) (node : Node) :
    node.placesBelow ancestors inList = ⟨node, ancestors, inList⟩ ::
      node.children.flatMap fun child => child.node.placesBelow (node :: ancestors) child.inList := by
  rw [placesBelow, List.flatMap_subtype (fun _ _ => rfl), List.unattach_attach]

/-- The places that can be reached from a place by going from a node to a child. -/
inductive Reaches (root : NodePlace) : NodePlace → Prop where
  | root : Reaches root root
  | child {place : NodePlace} {child : Child} (parent : Reaches root place)
      (below : child ∈ place.node.children) :
      Reaches root ⟨child.node, place.node :: place.ancestors, child.inList⟩

/-- Reaching is transitive. -/
theorem Reaches.trans {a b c : NodePlace} (first : Reaches a b) (rest : Reaches b c) : Reaches a c := by
  induction rest with
  | root => exact first
  | child _ below ih => exact ih.child below

/-- The places below a node are those it reaches. -/
theorem mem_placesBelow_iff (node : Node) : ∀ (ancestors : List Node) (inList : Bool) (place : NodePlace),
    place ∈ node.placesBelow ancestors inList ↔ Reaches ⟨node, ancestors, inList⟩ place := by
  induction node using induction_on_children with | _ node ih
  intro ancestors inList place
  rw [placesBelow_eq, List.mem_cons, List.mem_flatMap]
  constructor
  · rintro (rfl | ⟨child, below, inside⟩)
    · exact .root
    · exact .trans (.child .root below) ((ih child below _ _ _).1 inside)
  · intro reached
    induction reached with
    | root => exact .inl rfl
    | @child place child parent below into =>
      refine .inr ?_
      rcases into with rfl | ⟨upper, above, inside⟩
      · exact ⟨child, below, by rw [placesBelow_eq]; exact List.mem_cons_self⟩
      · exact ⟨upper, above, (ih upper above _ _ _).2 (.child ((ih upper above _ _ _).1 inside) below)⟩

end Node

namespace Walk

variable {σ : Type}

/-- The visitors that are called on nodes of a kind, by the number of their registration. -/
def turns (visitors : List (Visitor σ)) (kind : NodeKind) : List (Fin visitors.length) :=
  (keysOf kind).flatMap fun key => (List.finRange visitors.length).filter fun i => (visitors.get i).key == key

/-- The pass over the visitors in which those of a key are called on a node: first the key of all
nodes, then that of the kind, then those of the categories. -/
def pass (kind : NodeKind) : VisitorKey → Nat
  | .category .node => 0
  | .kind _ => 1
  | .category c => 2 + kind.categories.idxOf c

/-- The visitors of a kind are called in their turns. -/
theorem visitorsOf_eq_map (visitors : List (Visitor σ)) (kind : NodeKind) :
    visitorsOf visitors kind = (turns visitors kind).map visitors.get := by
  have picked (key : VisitorKey) : visitors.filter (·.key == key) =
      ((List.finRange visitors.length).filter fun i => (visitors.get i).key == key).map visitors.get := by
    conv_lhs => rw [← List.map_get_finRange visitors, List.filter_map]
    rfl
  simp only [visitorsOf, turns, List.map_flatMap, picked]

/-- The keys of a kind are listed in the order of their passes. -/
theorem pairwise_keysOf (kind : NodeKind) :
    (keysOf kind).Pairwise fun key key' => pass kind key < pass kind key' := by
  cases kind <;> decide

/-- The keys of a kind are those that cover it. -/
theorem mem_keysOf_iff (kind : NodeKind) (key : VisitorKey) :
    key ∈ keysOf kind ↔ key.covers kind = true := by
  cases key with
  | kind k => simp [keysOf, VisitorKey.covers]
  | category c => cases kind <;> cases c <;> decide

/-- A visitor has a turn at the kinds that its key covers. -/
theorem mem_turns_iff (visitors : List (Visitor σ)) (kind : NodeKind) (i : Fin visitors.length) :
    i ∈ turns visitors kind ↔ (visitors.get i).key.covers kind = true := by
  rw [← mem_keysOf_iff]
  simp [turns]

/-- Turns are ordered by pass, and within a pass as the visitors are listed. -/
theorem pairwise_turns (visitors : List (Visitor σ)) (kind : NodeKind) :
    (turns visitors kind).Pairwise fun i j =>
      pass kind (visitors.get i).key < pass kind (visitors.get j).key ∨
        (visitors.get i).key = (visitors.get j).key ∧ i < j := by
  refine List.pairwise_flatMap.2 ⟨?_, ?_⟩
  · intro key _
    refine ((List.pairwise_lt_finRange _).filter _).imp_of_mem ?_
    intro i j atI atJ lt
    have keyI := (List.mem_filter.1 atI).2
    have keyJ := (List.mem_filter.1 atJ).2
    exact .inr ⟨(beq_iff_eq.1 keyI).trans (beq_iff_eq.1 keyJ).symm, lt⟩
  · refine (pairwise_keysOf kind).imp ?_
    intro key key' lt i atI j atJ
    have keyI := (List.mem_filter.1 atI).2
    have keyJ := (List.mem_filter.1 atJ).2
    rw [beq_iff_eq.1 keyI, beq_iff_eq.1 keyJ]
    exact .inl lt

/-- No visitor has two turns at a node. -/
theorem nodup_turns (visitors : List (Visitor σ)) (kind : NodeKind) : (turns visitors kind).Nodup := by
  refine (pairwise_turns visitors kind).imp ?_
  rintro i j (earlier | ⟨_, lt⟩) rfl
  · exact Nat.lt_irrefl _ earlier
  · exact Nat.lt_irrefl _ lt

end Walk

/-- A visitor that leaves what it sees as it is and asks for nothing. -/
def Visitor.Quiet {σ : Type} (v : Visitor σ) : Prop := ∀ path state, (v.handle path state).1 = path

/-- A call of one of `n` visitors at a place. -/
structure Call (n : Nat) where
  place : NodePlace
  turn : Fin n

variable {σ : Type}

/-- What a call makes of the state. -/
def Call.run (visitors : List (Visitor σ)) (state : σ) (call : Call visitors.length) : σ :=
  ((visitors.get call.turn).handle call.place.path state).2

/-- The calls at a place in their order. -/
def NodePlace.calls (visitors : List (Visitor σ)) (place : NodePlace) : List (Call visitors.length) :=
  (Walk.turns visitors place.node.kind).map (⟨place, ·⟩)

/-- The calls on a tree in their order. -/
def Node.calls (visitors : List (Visitor σ)) (node : Node) : List (Call visitors.length) :=
  node.preorder.flatMap (NodePlace.calls visitors)

/-- A visitor is called once at a place that it covers, and nowhere else. -/
theorem NodePlace.filter_calls (visitors : List (Visitor σ)) (i : Fin visitors.length) (place : NodePlace) :
    ((place.calls visitors).filter (·.turn = i)).map Call.place =
      if (visitors.get i).key.covers place.node.kind then [place] else [] := by
  have once := (Walk.nodup_turns visitors place.node.kind).count (a := i)
  have picked : (Walk.turns visitors place.node.kind).filter (· = i) =
      if (visitors.get i).key.covers place.node.kind then [i] else [] := by
    simp only [List.filter_eq, once, Walk.mem_turns_iff]
    split <;> rfl
  have moved : (place.calls visitors).filter (·.turn = i) =
      ((Walk.turns visitors place.node.kind).filter (· = i)).map (⟨place, ·⟩) :=
    List.filter_map
  rw [moved, picked]
  split <;> rfl

/-- A visitor is called at the places that it covers, in preorder. -/
theorem Node.filter_calls (visitors : List (Visitor σ)) (i : Fin visitors.length) (node : Node) :
    ((node.calls visitors).filter (·.turn = i)).map Call.place =
      node.preorder.filter ((visitors.get i).key.covers ·.node.kind) := by
  rw [calls, List.filter_flatMap, List.map_flatMap]
  simp only [NodePlace.filter_calls]
  induction node.preorder with
  | nil => rfl
  | cons place places ih =>
    rw [List.flatMap_cons, List.filter_cons, ih]
    split <;> rfl

namespace Walk

/-- The walk of a part calls the visitors as listed and leaves the part as it is. -/
def Calls (visitors : List (Visitor σ)) {α : Type} (a : α) (calls : List (Call visitors.length)) (m : WalkM σ α) : Prop :=
  ∀ state, m ⟨state, false⟩ = some (a, ⟨calls.foldl (Call.run visitors) state, false⟩)

/-- Visitors that edit nothing are all called, one after the other. -/
theorem callAll_of_quiet {vs : List (Visitor σ)} (quiet : ∀ v ∈ vs, v.Quiet) {path : Path}
    (fresh : path.edits = .none) (state : σ) :
    callAll vs path state = (path, vs.foldl (fun state v => (v.handle path state).2) state) := by
  induction vs generalizing state with
  | nil => rfl
  | cons v vs ih =>
    have same : (v.handle path state).1 = path := quiet v List.mem_cons_self path state
    rw [callAll_cons]
    simp [same, fresh, Edits.none, ih (fun v mem => quiet v (List.mem_cons_of_mem _ mem))]

variable {visitors : List (Visitor σ)} {ancestors : List Node}

/-- Visiting a place without edits runs the calls of the place. -/
theorem visited_of_quiet (quiet : ∀ v ∈ visitors, v.Quiet) (place : NodePlace) (state : σ) :
    visited visitors (place.ancestors.map Node.kind) place.inList place.node state =
      (place.path, (place.calls visitors).foldl (Call.run visitors) state) := by
  have quiet_of : ∀ v ∈ visitorsOf visitors place.node.kind, v.Quiet := by
    intro v mem
    rw [visitorsOf_eq_map] at mem
    obtain ⟨i, _, rfl⟩ := List.mem_map.1 mem
    exact quiet _ (List.get_mem visitors i)
  rw [visited, callAll_of_quiet quiet_of rfl, visitorsOf_eq_map, List.foldl_map, NodePlace.calls,
    List.foldl_map]
  rfl

/-- The calls below a node whose ancestors are given with it. -/
def callsAmong (visitors : List (Visitor σ)) (ancestors : List Node) (l : List Child) :
    List (Call visitors.length) :=
  (l.flatMap fun child => child.node.placesBelow ancestors child.inList).flatMap (NodePlace.calls visitors)

/-- The calls among two lists of children follow each other. -/
theorem callsAmong_append (l l' : List Child) :
    callsAmong visitors ancestors (l ++ l') =
      callsAmong visitors ancestors l ++ callsAmong visitors ancestors l' := by
  simp [callsAmong]

/-- The calls at one child are those at its place and those below it. -/
theorem callsAmong_singleton (node : Node) (inList : Bool) :
    callsAmong visitors ancestors [⟨node, inList⟩] =
      NodePlace.calls visitors ⟨node, ancestors, inList⟩ ++
        callsAmong visitors (node :: ancestors) node.children := by
  rw [callsAmong, List.flatMap_singleton, Node.placesBelow_eq]
  rfl

theorem Calls.pure {α : Type} (a : α) : Calls visitors a [] (pure a) := fun _ => rfl

/-- Walks in sequence make their calls one after the other. -/
theorem Calls.bind {α β : Type} {a : α} {b : β} {calls calls' : List (Call visitors.length)}
    {m : WalkM σ α} {k : α → WalkM σ β} (first : Calls visitors a calls m)
    (rest : Calls visitors b calls' (k a)) : Calls visitors b (calls ++ calls') (m >>= k) := by
  intro state
  rw [List.foldl_append, ← rest]
  show (m _ >>= fun r => k r.1 r.2) = _
  rw [first]
  rfl

/-- A walk of a single node without edits makes the calls at it and below it. -/
theorem calls_single (quiet : ∀ v ∈ visitors, v.Quiet) {children : Node → WalkM σ Node} {node : Node}
    (below : Calls visitors node (callsAmong visitors (node :: ancestors) node.children) (children node)) :
    Calls visitors node (callsAmong visitors ancestors [⟨node, false⟩])
      (single visitors (ancestors.map Node.kind) children node) := by
  intro state
  rw [callsAmong_singleton, List.foldl_append, ← below, single_run,
    visited_of_quiet quiet ⟨node, ancestors, false⟩]
  rfl

/-- A walk of a list without edits makes the calls at each node and below it, in order. -/
theorem calls_list (quiet : ∀ v ∈ visitors, v.Quiet) {children : Node → WalkM σ Node} :
    ∀ nodes : List Node,
      (∀ node ∈ nodes,
        Calls visitors node (callsAmong visitors (node :: ancestors) node.children) (children node)) →
      Calls visitors nodes (callsAmong visitors ancestors (Child.listed nodes))
        (list visitors (ancestors.map Node.kind) children nodes)
  | [], _ => .pure []
  | node :: rest, below => by
    have first := below node List.mem_cons_self
    have others := calls_list quiet rest fun other mem => below other (List.mem_cons_of_mem _ mem)
    intro state
    have split : callsAmong visitors ancestors (Child.listed (node :: rest)) =
        NodePlace.calls visitors ⟨node, ancestors, true⟩ ++
          callsAmong visitors (node :: ancestors) node.children ++
            callsAmong visitors ancestors (Child.listed rest) := by
      rw [← callsAmong_singleton, ← callsAmong_append]
      rfl
    rw [split, List.foldl_append, List.foldl_append, list_run,
      visited_of_quiet quiet ⟨node, ancestors, true⟩]
    show (children node _).bind (fun walked => (list visitors (ancestors.map Node.kind) children rest
      walked.2).map fun r => ([] ++ [walked.1] ++ [] ++ r.1, r.2)) = _
    rw [first, Option.bind_some, others]
    rfl

/-- The walk of a part whose children have so few levels calls the visitors on these in pre-order. -/
theorem composes_calls (visitors : List (Visitor σ)) (ancestors : List Node) (levels : Nat) :
    Composes fun {α : Type} (a : α) (l : List Child) (m _ : WalkM σ α) =>
      (∀ child ∈ l, child.node.Within levels) → Calls visitors a (callsAmong visitors ancestors l) m where
  pure a _ := .pure a
  bind {α β a below beyond m m' g k k'} first rest within := by
    rw [callsAmong_append]
    refine (first fun child inside => ?_).bind (rest a fun child inside => ?_)
    · exact within child (List.mem_append_left _ inside)
    · exact within child (List.mem_append_right _ inside)

/-- A walk below a node without edits makes the calls there. -/
theorem calls_children (quiet : ∀ v ∈ visitors, v.Quiet) :
    ∀ (levels : Nat) (ancestors : List Node) (node : Node), node.Within levels →
      Calls visitors node (callsAmong visitors (node :: ancestors) node.children)
        (children visitors levels (ancestors.map Node.kind) node)
  | 0, _, _, within => within.elim
  | levels + 1, ancestors, node, within => by
    have ih := calls_children quiet levels (node :: ancestors)
    refine (composes_calls visitors (node :: ancestors) levels).parts_self ?_ ?_ node within
    · intro child within
      exact calls_single quiet (ih child (within _ (List.mem_singleton_self _)))
    · intro nodes within
      refine calls_list quiet nodes fun child mem => ih child ?_
      exact within ⟨child, true⟩ (List.mem_map_of_mem mem)

end Walk

/-- A traversal without edits runs the calls of the node in order and leaves the node. -/
theorem Node.traverse_of_quiet {visitors : List (Visitor σ)} (quiet : ∀ v ∈ visitors, v.Quiet)
    {node : Node} {fuel : Nat} (enough : node.Within fuel) (state : σ) :
    node.traverse fuel visitors state =
      some (node, (node.calls visitors).foldl (Call.run visitors) state) := by
  have below := Walk.calls_children quiet fuel [] node enough
  have whole : Walk.callsAmong visitors [] [⟨node, false⟩] = node.calls visitors := by
    rw [Walk.callsAmong, List.flatMap_singleton]
    rfl
  have walked := Walk.calls_single quiet below state
  rw [whole] at walked
  rw [traverse_eq]
  exact congrArg (Option.map _) walked

/-- Visitors that only look: for a node with at most as many levels as there is fuel, the walk ends with the tree as it
was and with what the calls made of the state, one after the other.  The calls go through the places of
the tree in pre-order, and a visitor is called once at each place that its key covers and nowhere else.
At one place the passes follow each other, with the visitors of one pass in the order of their registration.  A
visitor sees how many ancestors there are, the kind of the nearest, and the nearest that a key covers. -/
theorem Node.traverse_preorder {visitors : List (Visitor σ)} (quiet : ∀ v ∈ visitors, v.Quiet)
    (node : Node) :
    (∃ levels, node.Within levels) ∧
    (∀ fuel, node.Within fuel → ∀ state, node.traverse fuel visitors state =
      some (node, (node.calls visitors).foldl (Call.run visitors) state)) ∧
    (∀ place, place ∈ node.preorder ↔ Reaches ⟨node, [], false⟩ place) ∧
    (node.calls visitors = node.preorder.flatMap fun place =>
      (Walk.turns visitors place.node.kind).map (⟨place, ·⟩)) ∧
    (∀ i : Fin visitors.length, ((node.calls visitors).filter (·.turn = i)).map Call.place =
      node.preorder.filter ((visitors.get i).key.covers ·.node.kind)) ∧
    (∀ kind, (Walk.turns visitors kind).Pairwise fun i j =>
      Walk.pass kind (visitors.get i).key < Walk.pass kind (visitors.get j).key ∨
        (visitors.get i).key = (visitors.get j).key ∧ i < j) ∧
    (∀ place : NodePlace, place.path.depth = place.ancestors.length ∧
      place.path.parentKind? = place.ancestors.head?.map Node.kind ∧
      ∀ key : VisitorKey, place.path.findParent? key =
        (place.ancestors.find? (key.covers ·.kind)).map Node.kind) := by
  refine ⟨node.exists_within, ?_, ?_, rfl, ?_, ?_, ?_⟩
  · intro fuel enough state
    exact traverse_of_quiet quiet enough state
  · exact mem_placesBelow_iff node [] false
  · intro i
    exact filter_calls visitors i node
  · intro kind
    exact Walk.pairwise_turns visitors kind
  · intro place
    refine ⟨List.length_map _, List.head?_map, ?_⟩
    intro key
    exact List.find?_map

/-- A visitor that writes down the kinds of what it sees. -/
def Visitor.noting (key : VisitorKey) : Visitor (List NodeKind) :=
  ⟨key, fun path kinds => (path, kinds ++ [path.kind])⟩

theorem Visitor.quiet_noting (key : VisitorKey) : (noting key).Quiet := fun _ _ => rfl

/-- Two visitors of a block: both are called on the block, the one for all nodes first. -/
theorem Node.traverse_preorder_block :
    (∀ v ∈ [Visitor.noting (.kind .block), .noting (.category .node)], v.Quiet) ∧
    (block (.ofString "a") [instr "nop" none [] none] none).traverse 3
        [.noting (.kind .block), .noting (.category .node)] [] =
      some (block (.ofString "a") [instr "nop" none [] none] none,
        [.block, .block, .identifier, .instr]) := by
  have quiet : ∀ v ∈ [Visitor.noting (.kind .block), .noting (.category .node)], v.Quiet := by
    intro v mem
    rcases List.mem_cons.1 mem with rfl | mem
    · exact Visitor.quiet_noting _
    · rw [List.mem_singleton.1 mem]
      exact Visitor.quiet_noting _
  refine ⟨quiet, ?_⟩
  obtain ⟨-, walks, -⟩ := traverse_preorder quiet (block (.ofString "a") [instr "nop" none [] none] none)
  rw [walks 3 ?_ [], calls, preorder, placesBelow_eq]
  · have leaf (node : Node) (none : node.children = []) (ancestors inList) :
        node.placesBelow ancestors inList = [⟨node, ancestors, inList⟩] := by
      rw [placesBelow_eq, none, List.flatMap_nil]
    simp only [children, Child.alone, Child.listed, List.map_cons, List.map_nil, List.flatMap_append,
      List.flatMap_singleton, leaf (identifier _) rfl, leaf (instr _ _ [] _) rfl]
    rfl
  · simp [Within, children, Child.listed, Child.alone]

end WasmEngine
