import WasmEngine.Proofs.Syntax.References
import WasmEngine.Proofs.Syntax.SignatureInlining
import WasmEngine.Proofs.Syntax.Walks

/-!
# Inlining as two walks

Inlining recurses over the fields of a module, and so do two walks of the module by visitors: one that writes down
the type definitions it enters and edits nothing, and one that puts the signature in place of the reference when it
enters a node that holds one and records the first reference that denotes nothing.  Both come to what the recursion
comes to (`Module.traverse_of_inlineTypes`).

A walk is compared with a part that was computed without walking: the two agree when they lead to the same progress
and, unless the walk was stopped, to the same part (`Walk.Agree`).
-/

namespace WasmEngine

open Outcome

namespace Walk

variable {σ α β : Type}

/-- Two walks of a part that both have a result and lead to the same progress, and to the same part unless they were
stopped.  A walk that was stopped before does nothing. -/
def Agree (m m' : WalkM σ α) : Prop := ∀ p, ∃ a a' q, m p = some (a, q) ∧ m' p = some (a', q) ∧
  (q.stopped = false → a = a') ∧ (p.stopped = true → q = p)

namespace Agree

variable {m m' m'' : WalkM σ α}

theorem trans (first : Agree m m') (second : Agree m' m'') : Agree m m'' := by
  intro p
  obtain ⟨a, a', q, here, there, same, stays⟩ := first p
  obtain ⟨b, b', q', here', there', same', -⟩ := second p
  obtain ⟨rfl, rfl⟩ : a' = b ∧ q = q' := by simpa [there] using here'
  exact ⟨a, b', q, here, there', fun onward => (same onward).trans (same' onward), stays⟩

theorem pure (a : α) : Agree (pure a : WalkM σ α) (pure a) :=
  fun p => ⟨a, a, p, rfl, rfl, fun _ => rfl, fun _ => rfl⟩

theorem bind {k k' : α → WalkM σ β} (first : Agree m m') (rest : ∀ a, Agree (k a) (k' a)) :
    Agree (m >>= k) (m' >>= k') := by
  intro p
  obtain ⟨a, a', q, here, there, same, stays⟩ := first p
  obtain ⟨b, b', r, next, next', agree, stays'⟩ := rest a q
  cases onward : q.stopped with
  | false =>
    obtain rfl := same onward
    have one : (m >>= k) p = some (b, r) := by rw [bind_run, here]; exact next
    have other : (m' >>= k') p = some (b', r) := by rw [bind_run, there]; exact next'
    refine ⟨b, b', r, one, other, agree, fun stopped => ?_⟩
    rw [stays stopped, stopped] at onward
    cases onward
  | true =>
    -- both walks were stopped, so that what they go on with does nothing, whatever it goes on with
    obtain ⟨c, c', r', later, later', -, stays''⟩ := rest a' q
    have unmoved := stays' onward
    have unmoved' := stays'' onward
    subst r r'
    have one : (m >>= k) p = some (b, q) := by rw [bind_run, here]; exact next
    have other : (m' >>= k') p = some (c', q) := by rw [bind_run, there]; exact later'
    refine ⟨b, c', q, one, other, fun still => ?_, stays⟩
    rw [onward] at still
    cases still

theorem symm (agree : Agree m m') : Agree m' m := by
  intro p
  obtain ⟨a, a', q, here, there, same, stays⟩ := agree p
  exact ⟨a', a, q, there, here, fun onward => (same onward).symm, stays⟩

/-- A part that stays as it is is passed over. -/
theorem skip {a : α} {k k' : α → WalkM σ β} (first : Agree m (Pure.pure a)) (rest : ∀ a, Agree (k a) (k' a)) :
    Agree (m >>= k) (k' a) := first.bind rest

end Agree

/-- What agrees on the walks of the parts of a node, of a few levels each, agrees on the walk below it. -/
theorem composes_agree (levels : Nat) : Composes fun {α : Type} (_ : α) (l : List Child) (m m' : WalkM σ α) =>
    (∀ child ∈ l, child.node.Within levels) → Agree m m' where
  pure a _ := .pure a
  bind first rest within :=
    (first fun child inside => within child (List.mem_append_left _ inside)).bind fun b =>
      rest b fun child inside => within child (List.mem_append_right _ inside)

/-- A computation that may fail, as a part of a walk: a failure becomes the state and stops the walk. -/
def guarded {ε : Type} (r : Except ε α) (a : α) : WalkM (Option ε) α := fun p =>
  if p.stopped then some (a, p)
  else match r with
    | .ok a' => some (a', p)
    | .error e => some (a, ⟨some e, true⟩)

section

variable {ε : Type} {p : Progress (Option ε)}

/-- A stopped walk passes by a result. -/
theorem guarded_stopped (r : Except ε α) (a : α) (stopped : p.stopped = true) : guarded r a p = some (a, p) := by
  rw [guarded.eq_def, if_pos stopped]

/-- A result is taken up while the walk goes on. -/
theorem guarded_ok (a b : α) (onward : p.stopped = false) : guarded (.ok a) b p = some (a, p) := by
  rw [guarded, onward, if_neg Bool.false_ne_true]

/-- An error stops the walk, and is its state from there on. -/
theorem guarded_error (e : ε) (a : α) (onward : p.stopped = false) :
    guarded (.error e) a p = some (a, ⟨some e, true⟩) := by
  rw [guarded, onward, if_neg Bool.false_ne_true]

/-- What is left where a failure stops the walk does not matter. -/
theorem agree_guarded (r : Except ε α) (a b : α) : Agree (guarded r a) (guarded r b) := by
  intro p
  cases before : p.stopped with
  | true =>
    exact ⟨a, b, p, guarded_stopped r a before, guarded_stopped r b before, fun onward => by simp_all, fun _ => rfl⟩
  | false =>
    cases r with
    | ok c => exact ⟨c, c, p, guarded_ok c a before, guarded_ok c b before, fun _ => rfl, nofun⟩
    | error e => exact ⟨a, b, _, guarded_error e a before, guarded_error e b before, nofun, nofun⟩

theorem guarded_pure (a b : α) : Agree (guarded (.ok a : Except ε α) b) (pure a) := by
  intro p
  cases before : p.stopped with
  | true => exact ⟨b, a, p, guarded_stopped _ b before, rfl, fun onward => by simp_all, fun _ => rfl⟩
  | false => exact ⟨a, a, p, guarded_ok a b before, rfl, fun _ => rfl, nofun⟩

/-- Of two computations, one after the other, the first that fails stops the walk. -/
theorem guarded_bind (r : Except ε α) (a : α) {k : α → WalkM (Option ε) β} {f : α → Except ε β} {b : β}
    (rest : ∀ a, Agree (k a) (guarded (f a) b)) : Agree (guarded r a >>= k) (guarded (r >>= f) b) := by
  refine ((agree_guarded r a a).bind rest).trans fun p => ?_
  rw [bind_run]
  cases before : p.stopped with
  | true =>
    rw [guarded_stopped r a before, guarded_stopped _ b before]
    exact ⟨b, b, p, guarded_stopped _ b before, rfl, fun _ => rfl, fun _ => rfl⟩
  | false =>
    cases r with
    | ok c =>
      rw [guarded_ok c a before]
      obtain ⟨d, d', q, here, there, same, -⟩ := agree_guarded (f c) b b p
      exact ⟨d, d', q, here, there, same, nofun⟩
    | error e =>
      rw [guarded_error e a before]
      exact ⟨b, b, _, guarded_stopped _ b rfl, guarded_error e b before, fun _ => rfl, nofun⟩

end

end Walk

namespace TypeReference

open Node Walk

/-- A visitor that writes down type definitions. -/
def collecting : Visitor (List TypeDef) where
  key := .kind .typeDef
  handle path types := (path, types ++ path.node.typeDef?.toList)

/-- The node with the signature that it holds itself in place of a reference. -/
def inlineAt (types : List TypeDef) : Node → Except ResolveError Node
  | .func name sig locals body metadata => do
    return .func name (← inlineRef types sig) locals body metadata
  | .callIndirect sig => return .callIndirect (← inlineRef types sig)
  | .funcImport d => return .funcImport (← inlineFuncImport types d)
  | node => return node

/-- A visitor that puts signatures in place of references until one denotes nothing. -/
def inlining (types : List TypeDef) : Visitor (Option ResolveError) where
  key := .category .node
  handle path failed :=
    match inlineAt types path.node with
    | .ok node => ({ path with node }, failed)
    | .error e => (path.stop, some e)

/-- The definitions at a node and then those below its children. -/
theorem collect_eq_children (node : Node) :
    collect node = node.typeDef?.toList ++ node.children.flatMap fun child => collect child.node := by
  have listed (nodes : List Node) :
      (Child.listed nodes).flatMap (fun child => collect child.node) = collectAll nodes := by
    induction nodes with
    | nil => rfl
    | cons node nodes ih => rw [collectAll, ← ih]; rfl
  have index (i : Index) : collect (.ofIndex i) = [] := by cases i <;> rfl
  have signatureRef (sig : SignatureRef) : collect (.ofSignatureRef sig) = [] := by
    cases sig with
    | inline s => rfl
    | ref i => exact index i
  have descr (d : ImportDescr) : collect (.ofImportDescr d) = [] := by cases d <;> rfl
  cases node <;> simp [collect, Node.children, listed, index, signatureRef, descr, typeDef?, Child.alone]

/-- The types are collected in the order in which a walk enters their definitions. -/
theorem collect_eq_preorder (node : Node) (ancestors : List Node) (inList : Bool) :
    collect node = (node.placesBelow ancestors inList).filterMap fun place => place.node.typeDef? := by
  induction node using induction_on_children generalizing ancestors inList with | _ node ih
  have below : node.children.flatMap (fun child => collect child.node) = node.children.flatMap fun child =>
      (child.node.placesBelow (node :: ancestors) child.inList).filterMap fun place => place.node.typeDef? :=
    List.flatMap_congr fun child inside => ih child inside _ _
  rw [collect_eq_children, placesBelow_eq, below, List.filterMap_cons, List.filterMap_flatMap]
  cases node.typeDef? <;> rfl

/-- The first walk writes down the definitions and leaves the tree. -/
theorem traverse_collecting {node : Node} {fuel : Nat} (enough : node.Within fuel) :
    node.traverse fuel [collecting] [] = some (node, collect node) := by
  have quiet : ∀ v ∈ [collecting], v.Quiet := by
    intro v only
    rw [List.mem_singleton.1 only]
    exact fun _ _ => rfl
  -- There is but one visitor, so that its calls are all that there are.
  have calls : (node.calls [collecting]).map Call.place =
      node.preorder.filter (VisitorKey.covers (.kind .typeDef) ·.node.kind) := by
    have all : (node.calls [collecting]).filter (fun call => call.turn = 0) = node.calls [collecting] :=
      List.filter_eq_self.2 fun call _ => decide_eq_true (Subsingleton.elim (α := Fin 1) _ _)
    rw [← all]
    exact filter_calls [collecting] 0 node
  have writes (calls : List (Call [collecting].length)) (types : List TypeDef) :
      calls.foldl (Call.run [collecting]) types =
        types ++ (calls.map Call.place).filterMap fun place => place.node.typeDef? := by
    induction calls generalizing types with
    | nil => simp
    | cons call calls ih =>
      rw [List.foldl_cons, ih, List.map_cons, List.filterMap_cons]
      have turn : call.turn = 0 := Subsingleton.elim (α := Fin 1) _ _
      have ran : Call.run [collecting] types call = types ++ call.place.node.typeDef?.toList := by
        rw [Call.run, turn]
        rfl
      rw [ran]
      cases call.place.node.typeDef? <;> simp
  rw [traverse_of_quiet quiet enough, writes, calls, List.nil_append, List.filterMap_filter,
    collect_eq_preorder node [] false]
  congr 2
  refine List.filterMap_congr fun place _ => ?_
  cases place.node <;> rfl

variable {types : List TypeDef}

/-- A signature that is in place stays there. -/
theorem inlineRef_of_inlineRef {sig sig' : SignatureRef} (done : inlineRef types sig = .ok sig') :
    inlineRef types sig' = .ok sig' := by
  cases sig with
  | inline s => cases done; rfl
  | ref i =>
    rw [inlineRef] at done
    cases found : find? types i with
    | none => rw [found] at done; cases done
    | some t => rw [found] at done; cases done; rfl

/-- What a visit makes of a node: a function, an indirect call or a function import holds a signature after it, and
every other node is as it was. -/
theorem inlineAt_cases {node node' : Node} (done : inlineAt types node = .ok node') :
    (∃ name sig sig' locals body metadata, inlineRef types sig = .ok sig' ∧
      node = .func name sig locals body metadata ∧ node' = .func name sig' locals body metadata) ∨
    (∃ sig sig', inlineRef types sig = .ok sig' ∧ node = .callIndirect sig ∧ node' = .callIndirect sig') ∨
    (∃ id sig sig', inlineRef types sig = .ok sig' ∧ node = .funcImport ⟨id, sig⟩ ∧
      node' = .funcImport ⟨id, sig'⟩) ∨
    node' = node := by
  cases node with
  | func name sig locals body metadata =>
    obtain ⟨sig', first, rest⟩ := bind_eq_ok_iff.1 done
    cases rest
    exact .inl ⟨_, _, _, _, _, _, first, rfl, rfl⟩
  | callIndirect sig =>
    obtain ⟨sig', first, rest⟩ := bind_eq_ok_iff.1 done
    cases rest
    exact .inr (.inl ⟨_, _, first, rfl, rfl⟩)
  | funcImport d =>
    obtain ⟨d', inlined, rest⟩ := bind_eq_ok_iff.1 done
    obtain ⟨sig', first, same⟩ := bind_eq_ok_iff.1 inlined
    cases same
    cases rest
    exact .inr (.inr (.inl ⟨_, _, _, first, rfl, rfl⟩))
  | _ => cases done; exact .inr (.inr (.inr rfl))

/-- A node that has its signatures in place of references keeps them. -/
theorem inlineAt_of_inlineAt {node node' : Node} (done : inlineAt types node = .ok node') :
    inlineAt types node' = .ok node' := by
  obtain ⟨_, _, _, _, _, _, first, rfl, rfl⟩ | ⟨_, _, first, rfl, rfl⟩ | ⟨_, _, _, first, rfl, rfl⟩ | rfl :=
    inlineAt_cases done
  · rw [inlineAt, inlineRef_of_inlineRef first]; rfl
  · rw [inlineAt, inlineRef_of_inlineRef first]; rfl
  · simp only [inlineAt, inlineFuncImport, inlineRef_of_inlineRef first]; rfl
  · exact done

/-- After the visit of a node the same is left to do as before. -/
theorem inline_of_inlineAt {node node' : Node} (done : inlineAt types node = .ok node') :
    inline types node = inline types node' := by
  obtain ⟨_, _, _, _, _, _, first, rfl, rfl⟩ | ⟨_, _, first, rfl, rfl⟩ | ⟨_, _, _, first, rfl, rfl⟩ | rfl :=
    inlineAt_cases done
  · rw [inline, inline, first, inlineRef_of_inlineRef first]
  · rw [inline, inline, first, inlineRef_of_inlineRef first]
  · rw [inline, inline, inlineFuncImport, inlineFuncImport, first, inlineRef_of_inlineRef first]
  · rfl

/-- Where the signature of a node itself cannot be found, inlining fails with that error. -/
theorem inline_of_inlineAt_error {node : Node} {e : ResolveError} (failed : inlineAt types node = .error e) :
    inline types node = .error e := by
  cases node with
  | func name sig locals body metadata =>
    obtain failed | ⟨_, -, rest⟩ := bind_eq_error_iff.1 failed
    · rw [inline, failed]; rfl
    · cases rest
  | callIndirect sig =>
    obtain failed | ⟨_, -, rest⟩ := bind_eq_error_iff.1 failed
    · rw [inline, failed]; rfl
    · cases rest
  | funcImport d =>
    obtain failed | ⟨_, -, rest⟩ := bind_eq_error_iff.1 failed
    · rw [inline, failed]; rfl
    · cases rest
  | _ => cases failed

/-- A signature in place of a reference adds no levels to a tree. -/
theorem within_of_inlineAt {node node' : Node} {levels : Nat} (done : inlineAt types node = .ok node')
    (within : node.Within levels) : node'.Within levels := by
  obtain _ | levels := levels
  · exact within.elim
  have leaf {sig : SignatureRef} (inside : (ofSignatureRef sig).Within levels) (sig' : SignatureRef) :
      (ofSignatureRef sig').Within levels := by
    obtain _ | levels := levels
    · exact inside.elim
    · cases sig' with
      | inline s => exact fun child below => nomatch below
      | ref i => cases i <;> exact fun child below => nomatch below
  have replaced (first later : List Child) {sig sig' : SignatureRef}
      (each : ∀ child ∈ first ++ (Child.alone [ofSignatureRef sig] ++ later), child.node.Within levels) :
      ∀ child ∈ first ++ (Child.alone [ofSignatureRef sig'] ++ later), child.node.Within levels := by
    intro child inside
    rcases List.mem_append.1 inside with before | rest
    · exact each child (List.mem_append_left _ before)
    · rcases List.mem_append.1 rest with here | after
      · obtain rfl := List.mem_singleton.1 here
        have there : (⟨ofSignatureRef sig, false⟩ : Child) ∈ first ++ (Child.alone [ofSignatureRef sig] ++ later) :=
          List.mem_append_right _ (List.mem_append_left _ (List.mem_singleton_self _))
        exact leaf (each _ there) sig'
      · exact each child (List.mem_append_right _ (List.mem_append_right _ after))
  obtain ⟨_, _, _, _, _, _, -, rfl, rfl⟩ | ⟨_, _, -, rfl, rfl⟩ | ⟨_, _, _, -, rfl, rfl⟩ | rfl := inlineAt_cases done
  · exact replaced _ _ within
  · exact replaced [] [] within
  · exact replaced _ [] within
  · exact within

/-- A walk of a part leaves it as it is, if inlining leaves the nodes that are passed.  Of two walks, this is said of
the first. -/
def Stays (types : List TypeDef) {α : Type} (a : α) (l : List Child) (m _ : WalkM (Option ResolveError) α) : Prop :=
  (∀ child ∈ l, inline types child.node = .ok child.node) → Agree m (pure a)

/-- Staying as it is composes along the parts of a node. -/
theorem composes_stays (types : List TypeDef) : Composes (Stays types) where
  pure a _ := .pure a
  bind first rest fixed :=
    (first fun child inside => fixed child (List.mem_append_left _ inside)).skip fun b =>
      rest b fun child inside => fixed child (List.mem_append_right _ inside)

/-- A node below another, with signatures in place of references. -/
def inlineOne (types : List TypeDef) (node : Node) : WalkM (Option ResolveError) Node :=
  guarded (inline types node) node

/-- Nodes of a list, with signatures in place of references. -/
def inlineMany (types : List TypeDef) (nodes : List Node) : WalkM (Option ResolveError) (List Node) :=
  guarded (inlineAll types nodes) nodes

/-- A node that inlining leaves stays as it is. -/
theorem stays_inlineOne (node : Node) :
    Stays types node (Child.alone [node]) (inlineOne types node) (inlineOne types node) := by
  intro fixed
  rw [inlineOne, fixed ⟨node, false⟩ (List.mem_singleton_self _)]
  exact guarded_pure node node

/-- Nodes that inlining leaves stay as they are. -/
theorem stays_inlineMany (nodes : List Node) :
    Stays types nodes (Child.listed nodes) (inlineMany types nodes) (inlineMany types nodes) := by
  intro fixed
  have all : inlineAll types nodes = .ok nodes := by
    induction nodes with
    | nil => rfl
    | cons node nodes ih =>
      rw [inlineAll, fixed ⟨node, true⟩ List.mem_cons_self,
        ih fun child inside => fixed child (List.mem_cons_of_mem _ inside)]
      rfl
  rw [inlineMany, all]
  exact guarded_pure nodes nodes

theorem inline_ofSignatureRef (sig : SignatureRef) :
    inline types (.ofSignatureRef sig) = .ok (.ofSignatureRef sig) := by
  cases sig with
  | inline s => rfl
  | ref i => exact inline_ofIndex i

/-- The description of an imported function is a node of its own, which holds the reference. -/
theorem inline_funcImport (d : FuncImport) :
    (inline types (.funcImport d) >>= fun node =>
      .ok ((match node with | .funcImport d => some d | _ => none).getD d)) = inlineFuncImport types d := by
  rw [inline]
  cases inlineFuncImport types d <;> rfl

/-- A node that stands alone and is left by inlining. -/
theorem inline_of_mem_alone {node : Node} (same : inline types node = .ok node) :
    ∀ child ∈ Child.alone [node], inline types child.node = .ok child.node := by
  intro child inside
  rw [List.mem_singleton.1 inside, same]

/-- A node that inlining leaves, with all below it, has parts that stay as they are. -/
theorem agree_parts_of_kept {node : Node} (same : inline types node = .ok node)
    (below : ∀ child ∈ node.children, inline types child.node = .ok child.node) :
    Agree (parts (inlineOne types) (inlineMany types) node) (guarded (inline types node) node) := by
  have kept := (composes_stays types).parts_self (fun node => stays_inlineOne node) stays_inlineMany node below
  rw [same]
  exact kept.trans (guarded_pure node node).symm

/-- The last list of nodes of a node is inlined, and what is done after it puts the node together. -/
theorem agree_last {node : Node} {k : List Node → WalkM (Option ResolveError) Node} {wrap : List Node → Node}
    (body : List Node) (rest : ∀ body, Agree (k body) (pure (wrap body))) :
    Agree (inlineMany types body >>= k) (guarded (do return wrap (← inlineAll types body)) node) :=
  guarded_bind _ _ fun body => (rest body).trans (guarded_pure (wrap body) node).symm

/-- The reference of an imported function is inlined in the node of its description. -/
theorem agree_importedFunc (module name : String) (d : FuncImport) (id : Option Identifier) :
    Agree (parts (inlineOne types) (inlineMany types) (.moduleImport ⟨module, name, .func d, id⟩))
      (guarded (inline types (.moduleImport ⟨module, name, .func d, id⟩)) (.moduleImport ⟨module, name, .func d, id⟩)) := by
  have descr : Agree (parts.funcImport (inlineOne types) d) (guarded (inlineFuncImport types d) d) := by
    rw [← inline_funcImport]
    exact guarded_bind _ _ fun node => (guarded_pure _ _).symm
  have whole : inline types (.moduleImport ⟨module, name, .func d, id⟩) =
      (do return .moduleImport ⟨module, name, .func (← inlineFuncImport types d), id⟩) := by rw [inline]
  rw [whole]
  exact (descr.bind fun d => .pure (Node.moduleImport ⟨module, name, .func d, id⟩)).trans
    (guarded_bind _ _ fun d => (guarded_pure _ _).symm)

/-- Inlining below a node that holds no reference itself is inlining its parts in their order. -/
theorem agree_parts {node : Node} (settled : inlineAt types node = .ok node) :
    Agree (parts (inlineOne types) (inlineMany types) node) (guarded (inline types node) node) := by
  have fixed := composes_stays types
  have one (node) : Stays types node (Child.alone [node]) (inlineOne types node) (inlineOne types node) :=
    stays_inlineOne node
  have identifier (id) : Agree (parts.identifier (inlineOne types) id) (pure id) :=
    fixed.part one id rfl (inline_of_mem_alone rfl)
  have index (i) : Agree (parts.index (inlineOne types) i) (pure i) :=
    fixed.index one i (inline_of_mem_alone (inline_ofIndex i))
  cases node with
  | program body => exact agree_last body fun body => .pure _
  | module id fields metadata =>
    have whole : Agree (metadata.mapM (parts.moduleMetadata (inlineOne types))) (pure metadata) := by
      cases metadata with
      | none => exact .pure none
      | some m => exact Agree.skip (fixed.part one m rfl (inline_of_mem_alone rfl)) fun m => .pure (some m)
    exact agree_last fields fun fields => whole.skip fun metadata => .pure _
  | func name sig locals body metadata =>
    have held : inlineRef types sig = .ok sig := by
      obtain ⟨sig', first, same⟩ := bind_eq_ok_iff.1 settled
      cases same
      exact first
    have there : inline types (.func name sig locals body metadata) =
        (do return .func name sig locals (← inlineAll types body) metadata) := by rw [inline, held]; rfl
    have signature : Agree (parts.signatureRef (inlineOne types) sig) (pure sig) :=
      fixed.signatureRef one sig (inline_of_mem_alone (inline_ofSignatureRef sig))
    rw [there]
    exact (identifier name).skip fun name => signature.skip fun sig => agree_last body fun body => .pure _
  | instr name object args memArg => exact agree_last args fun args => .pure _
  | block label body result => exact (identifier label).skip fun label => agree_last body fun body => .pure _
  | loop label result body => exact (identifier label).skip fun label => agree_last body fun body => .pure _
  | ifElse label result consequent alternate =>
    exact (identifier label).skip fun label => guarded_bind _ _ fun consequent =>
      agree_last alternate fun alternate => .pure _
  | global type init name =>
    have globalType : Agree (parts.globalType (inlineOne types) type) (pure type) :=
      fixed.part one type rfl (inline_of_mem_alone rfl)
    have named : Agree (name.mapM (parts.identifier (inlineOne types))) (pure name) := by
      cases name with
      | none => exact .pure none
      | some id => exact (identifier id).skip fun id => .pure (some id)
    exact globalType.skip fun type => agree_last init fun init => named.skip fun name => .pure _
  | elem target offset funcs =>
    have listed : Agree (funcs.mapM (parts.index (inlineOne types))) (pure funcs) :=
      fixed.list_mapM (fixed.index one) funcs (by simp [Child.alone, inline_ofIndex])
    exact (index target).skip fun target => agree_last offset fun offset => listed.skip fun funcs => .pure _
  | data target offset init =>
    have bytes : Agree (parts.segment (inlineOne types) init) (pure init) :=
      fixed.part one init rfl (inline_of_mem_alone rfl)
    exact (index target).skip fun target => agree_last offset fun offset => bytes.skip fun init => .pure _
  | callIndirect sig =>
    exact agree_parts_of_kept (by rw [inline]; exact settled)
      (by simp [Node.children, Child.alone, inline_ofSignatureRef])
  | funcImport d =>
    exact agree_parts_of_kept (by rw [inline]; exact settled)
      (by simp [Node.children, Child.alone, inline, inline_ofSignatureRef])
  | moduleImport decl =>
    obtain ⟨module, name, descr, id⟩ := decl
    cases descr with
    | func d => exact agree_importedFunc module name d id
    | global | memory | table =>
      exact agree_parts_of_kept rfl (by simp [Node.children, Child.alone, ofImportDescr, inline])
  | _ =>
    exact agree_parts_of_kept rfl (by simp [Node.children, Child.alone, inline, inline_ofIndex, or_imp, forall_and])

/-- What is visited first: the signature that the node holds itself. -/
theorem visited_inlining (ancestors : List NodeKind) (inList : Bool) (node : Node) (failed : Option ResolveError) :
    visited [inlining types] ancestors inList node failed = match inlineAt types node with
      | .ok node' => (⟨node', ancestors, inList, .none⟩, failed)
      | .error e => (⟨node, ancestors, inList, { Edits.none with stop := true }⟩, some e) := by
  have all : visitorsOf [inlining types] node.kind = [inlining types] := by cases node.kind <;> rfl
  rw [visited, all, callAll_cons]
  cases visit : inlineAt types node with
  | ok node' =>
    have handled : (inlining types).handle ⟨node, ancestors, inList, .none⟩ failed =
        (⟨node', ancestors, inList, .none⟩, failed) := by simp only [inlining, visit]
    rw [handled]
    rfl
  | error e =>
    have handled : (inlining types).handle ⟨node, ancestors, inList, .none⟩ failed =
        (Path.stop ⟨node, ancestors, inList, .none⟩, some e) := by simp only [inlining, visit]
    rw [handled]
    rfl

section

variable {levels : Nat} {ancestors : List NodeKind} {children : Node → WalkM (Option ResolveError) Node}

/-- A node that stands alone is visited, and then the walk goes on below it. -/
theorem agree_single
    (below : ∀ node : Node, inlineAt types node = .ok node → node.Within levels →
      Agree (children node) (guarded (inline types node) node))
    (node : Node) (within : node.Within levels) :
    Agree (single [inlining types] ancestors children node) (inlineOne types node) := by
  intro p
  obtain ⟨failed, stopped⟩ := p
  cases stopped with
  | true => exact ⟨node, node, _, rfl, guarded_stopped _ node rfl, fun _ => rfl, fun _ => rfl⟩
  | false =>
    rw [single_run, visited_inlining, inlineOne]
    cases visit : inlineAt types node with
    | error e =>
      rw [inline_of_inlineAt_error visit, guarded_error e node rfl]
      exact ⟨node, node, _, rfl, rfl, nofun, nofun⟩
    | ok node' =>
      have walked := (below node' (inlineAt_of_inlineAt visit) (within_of_inlineAt visit within)).trans
        (agree_guarded _ node' node)
      rw [inline_of_inlineAt visit]
      exact walked ⟨failed, false⟩

/-- By induction on the list, of which the visitor removes nothing. -/
theorem agree_list
    (below : ∀ node : Node, inlineAt types node = .ok node → node.Within levels →
      Agree (children node) (guarded (inline types node) node))
    (nodes : List Node) (within : ∀ node ∈ nodes, node.Within levels) :
    Agree (list [inlining types] ancestors children nodes) (inlineMany types nodes) := by
  induction nodes with
  | nil => exact (guarded_pure [] []).symm
  | cons node nodes ih =>
    have here := within node List.mem_cons_self
    have rest := ih fun other inside => within other (List.mem_cons_of_mem _ inside)
    intro p
    obtain ⟨failed, stopped⟩ := p
    cases stopped with
    | true => exact ⟨_, _, _, rfl, guarded_stopped _ _ rfl, fun _ => rfl, fun _ => rfl⟩
    | false =>
      rw [list_run, visited_inlining]
      cases visit : inlineAt types node with
      | error e =>
        rw [inlineMany, inlineAll, inline_of_inlineAt_error visit]
        exact ⟨_, _, _, rfl, guarded_error e _ rfl, nofun, nofun⟩
      | ok node' =>
        let walk : WalkM (Option ResolveError) (List Node) := do
          let first ← children node'
          let others ← list [inlining types] ancestors children nodes
          return first :: others
        have walked : Agree walk (inlineMany types (node :: nodes)) := by
          rw [inlineMany, inlineAll, inline_of_inlineAt visit]
          refine ((below node' (inlineAt_of_inlineAt visit) (within_of_inlineAt visit here)).bind fun first =>
            rest.bind fun others => .pure (first :: others)).trans ?_
          exact guarded_bind _ _ fun first => guarded_bind _ _ fun others => (guarded_pure _ _).symm
        -- nothing is added to the list and nothing removed from it
        have same : walk ⟨failed, false⟩ = (children node' ⟨failed, false⟩).bind fun first =>
            (list [inlining types] ancestors children nodes first.2).map fun others =>
              (first.1 :: others.1, others.2) := by
          dsimp only [walk]
          rw [bind_run]
          congr 1
          funext first
          rw [bind_run]
          cases list [inlining types] ancestors children nodes first.2 <;> rfl
        have ends := walked ⟨failed, false⟩
        rw [same] at ends
        exact ends

end

/-- By induction on the levels: the walk below a node that holds no reference itself inlines its parts. -/
theorem agree_children : ∀ (levels : Nat) (ancestors : List NodeKind) (node : Node),
    inlineAt types node = .ok node → node.Within levels →
    Agree (Walk.children [inlining types] levels ancestors node) (guarded (inline types node) node)
  | 0, _, _, _, within => within.elim
  | levels + 1, ancestors, node, settled, within => by
    have ih := agree_children levels (node.kind :: ancestors)
    refine Agree.trans ?_ (agree_parts settled)
    refine (composes_agree levels).parts ?_ ?_ node within
    · exact fun child within => agree_single ih child (within _ (List.mem_singleton_self _))
    · intro nodes within
      exact agree_list ih nodes fun node inside => within ⟨node, true⟩ (List.mem_map_of_mem inside)

/-- The second walk puts signatures in place of the references as inlining does, or it stops at the first that denotes
nothing. -/
theorem traverse_inlining {node : Node} {fuel : Nat} (enough : node.Within fuel) :
    ∃ node' failed, node.traverse fuel [inlining types] none = some (node', failed) ∧
      match inline types node with
      | .ok inlined => node' = inlined ∧ failed = none
      | .error e => failed = some e := by
  obtain ⟨node', inlined, ⟨failed, stopped⟩, walks, ends, same, -⟩ :=
    agree_single (agree_children fuel []) node enough ⟨none, false⟩
  refine ⟨node', failed, by rw [traverse_eq, walks]; rfl, ?_⟩
  cases result : inline types node with
  | ok inlined' =>
    rw [inlineOne, result, guarded_ok _ _ rfl] at ends
    cases ends
    exact ⟨same rfl, rfl⟩
  | error e =>
    rw [inlineOne, result, guarded_error e node rfl] at ends
    cases ends
    rfl

end TypeReference

/-- Inlining the types of a module is a walk that writes down the type definitions and one that puts signatures in place
of the references, up to the first that denotes nothing. -/
theorem Module.traverse_of_inlineTypes (m : Module) {fuel : Nat} (enough : m.toNode.Within fuel) :
    m.toNode.traverse fuel [TypeReference.collecting] [] = some (m.toNode, m.types) ∧
    ∃ node failed, m.toNode.traverse fuel [TypeReference.inlining m.types] none = some (node, failed) ∧
      match m.inlineTypes with
      | .ok m' => node = m'.toNode ∧ failed = none
      | .error e => failed = some e := by
  have types : m.types = TypeReference.collectAll m.fields := (TypeReference.collectAll_eq m.fields).symm
  have fields : TypeReference.inline m.types m.toNode = (do return (← m.inlineTypes).toNode) := by
    rw [Module.toNode, TypeReference.inline, Module.inlineTypes, types]
    cases TypeReference.inlineAll (TypeReference.collectAll m.fields) m.fields <;> rfl
  obtain ⟨node, failed, walks, ends⟩ := @TypeReference.traverse_inlining m.types _ _ enough
  refine ⟨?_, node, failed, walks, ?_⟩
  · rw [TypeReference.traverse_collecting enough, types]
    rfl
  · rw [fields] at ends
    cases result : m.inlineTypes with
    | ok m' =>
      rw [result] at ends
      exact ends
    | error e =>
      rw [result] at ends
      exact ends

end WasmEngine
