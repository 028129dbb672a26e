import Mathlib.Data.List.Nodup
import WasmEngine.Proofs.Binary.Reading
import WasmEngine.Proofs.Syntax.Numbering
import WasmEngine.Proofs.Wat.Sequences

/-!
# Numbers of labels

While a source is read each generated label gets a number of its own (`nodup_generatedLabels_of_parse`).
The invariant is `HandedOut`: the labels read so far are different, and their numbers are below the
counters of the generator.
-/

namespace WasmEngine.Wat

open Node Outcome

/-- The labels generated in a construct are its own and those inside. -/
theorem generatedLabels_blockNode (word : String) (label : Identifier) (result : Option Valtype)
    (body : List Node) :
    (blockNode word label result body).generatedLabels = label.generated ++ generatedLabelsIn body := by
  unfold blockNode
  split <;> rw [generatedLabels]

/-! ## Names handed out -/

/-- Names of labels that a generator handed out, each once. -/
structure HandedOut (g : NameGenerator) (names : List String) : Prop where
  once : names.Nodup
  numbered : ∀ name ∈ names, ∃ stem n, isBlockWord stem = true ∧ n < g.count stem ∧
    name = stem ++ "_" ++ toString n

section HandedOut

variable {g : NameGenerator} {names names' : List String}

/-- Names that are handed out are so with fewer occurrences. -/
theorem HandedOut.fewer (handed : HandedOut g names) (fewer : ∀ name, names'.count name ≤ names.count name) :
    HandedOut g names' where
  once := List.nodup_iff_count_le_one.2 fun name =>
    (fewer name).trans (List.nodup_iff_count_le_one.1 handed.once name)
  numbered name listed :=
    handed.numbered name (List.count_pos_iff.1 ((List.count_pos_iff.2 listed).trans_le (fewer name)))

/-- Names that are handed out stay so when another one is. -/
theorem HandedOut.later (handed : HandedOut g names) (stem : String) :
    HandedOut (g.unique stem).2 names where
  once := handed.once
  numbered name listed :=
    let ⟨stem', n, isBlock, below, same⟩ := handed.numbered name listed
    ⟨stem', n, isBlock, below.trans_le (g.count_le_unique stem stem'), same⟩

/-- The next name is none of those handed out, since its number is the counter. -/
theorem HandedOut.unique (handed : HandedOut g names) {stem : String} (isBlock : isBlockWord stem = true) :
    HandedOut (g.unique stem).2 ((g.unique stem).1 :: names) where
  once := by
    refine List.nodup_cons.2 ⟨fun listed => ?_, handed.once⟩
    obtain ⟨stem', n, -, below, same⟩ := handed.numbered _ listed
    obtain ⟨rfl, counted⟩ := NameGenerator.generated_inj same
    exact Nat.ne_of_gt below counted
  numbered := by
    refine List.forall_mem_cons.2 ⟨⟨stem, g.count stem, isBlock, ?_, rfl⟩, (handed.later stem).numbered⟩
    rw [NameGenerator.count_unique_self]
    exact Nat.lt_succ_self _

end HandedOut

/-! ## Readers that hand out labels -/

/-- From labels that are known a reader gets to those of what it gives. -/
def Mints {α : Type} (known : List String) (names : α → List String) (r : ParseM α) : Prop :=
  ∀ g a g', HandedOut g known → r g = .ok (a, g') → HandedOut g' (names a)

section Mints

variable {α β : Type} {known known' : List String} {names : α → List String} {names' : β → List String}
  {x : ParseM α} {f : α → ParseM β}

/-- Readings in sequence mint their names one after the other. -/
theorem Mints.bind (first : Mints known names x) (rest : ∀ a, Mints (names a) names' (f a)) :
    Mints known names' (x >>= f) := by
  intro g b g' handed ends
  obtain ⟨⟨a, mid⟩, here, there⟩ := bind_eq_ok_iff.1 ends
  exact rest a mid b g' (first g a mid handed here) there

theorem mints_pure {a : α} (fewer : ∀ name, (names a).count name ≤ known.count name) :
    Mints known names (pure a) := by
  intro g b g' handed ends
  cases ends
  exact handed.fewer fewer

/-- A reader that takes no names comes first. -/
theorem Mints.lift {r : Parsed α} (rest : ∀ a, r = .ok a → Mints known names' (f a)) :
    Mints known names' (liftM r >>= f) := by
  intro g b g' handed ends
  obtain ⟨⟨a, mid⟩, here, there⟩ := bind_eq_ok_iff.1 ends
  obtain ⟨a', read, same⟩ := bind_eq_ok_iff.1 here
  cases same
  exact rest a read g b g' handed there

theorem mints_lift {r : Parsed α} (fewer : ∀ a, r = .ok a → ∀ name, (names a).count name ≤ known.count name) :
    Mints known names (liftM r) := by
  intro g b g' handed ends
  obtain ⟨a, here, there⟩ := bind_eq_ok_iff.1 ends
  cases there
  exact handed.fewer (fewer b here)

theorem mints_throw {e : ParseError} : Mints known names (throw e) := by
  intro g b g' _ ends
  cases ends

theorem mints_throw_then {e : ParseError} : Mints known names' (throw e >>= f) := by
  intro g b g' _ ends
  cases ends

theorem mints_error {e : ParseError} : Mints known names (liftM (.error e : Parsed α)) := mints_lift nofun

/-- Names that are known may be more. -/
theorem Mints.fewer (mints : Mints known names x) (fewer : ∀ name, known.count name ≤ known'.count name) :
    Mints known' names x :=
  fun g a g' handed ends => mints g a g' (handed.fewer fewer) ends

/-- The label of a block, if none is given. -/
theorem mints_label (i : Items) {stem : String} (isBlock : isBlockWord stem = true) :
    Mints known (fun r => r.1.generated ++ known) (nameOrFresh i stem) := by
  unfold nameOrFresh
  split
  · refine mints_pure fun name => ?_
    rw [Identifier.generated_ofString, List.nil_append]
  · have fresh : Mints known (fun id : Identifier => id.generated ++ known) (freshName stem) := by
      intro g id g' handed ends
      obtain ⟨rfl, rfl⟩ : Identifier.synthesized (g.unique stem).1 = id ∧ (g.unique stem).2 = g' :=
        Prod.mk.inj (Except.ok.inj ends)
      refine (handed.unique isBlock).fewer fun name => ?_
      have one := Identifier.count_generated_synthesized_le (g.unique stem).1 name
      rw [List.count_append, ← List.singleton_append, List.count_append]
      omega
    exact fresh.bind fun id => mints_pure fun _ => Nat.le_refl _

/-- The name of a definition. -/
theorem mints_name (i : Items) (stem : String) : Mints known (fun _ => known) (nameOrFresh i stem) := by
  unfold nameOrFresh
  split
  · exact mints_pure fun _ => Nat.le_refl _
  · have fresh : Mints known (fun _ => known) (freshName stem) := by
      intro g id g' handed ends
      obtain ⟨rfl, rfl⟩ : Identifier.synthesized (g.unique stem).1 = id ∧ (g.unique stem).2 = g' :=
        Prod.mk.inj (Except.ok.inj ends)
      exact handed.later stem
    exact fresh.bind fun id => mints_pure fun _ => Nat.le_refl _

end Mints

/-! ## Instructions -/

/-- The labels that the readers of instructions generate are new ones, whatever fuel they have. -/
structure Minting (fuel : Nat) : Prop where
  sequence : ∀ known depth stops i, Mints known (fun r => generatedLabelsIn r.1 ++ known)
    (parseSequence fuel depth stops i)
  plain : ∀ known depth word site i, Mints known (fun r => r.1.generatedLabels ++ known)
    (parsePlain fuel depth word site i)
  folded : ∀ known depth e, Mints known (fun nodes => generatedLabelsIn nodes ++ known)
    (parseFolded fuel depth e)
  arms : ∀ known depth es consequent alternate,
    Mints (generatedLabelsIn consequent ++ (generatedLabelsIn alternate ++ known))
      (fun r => generatedLabelsIn r.1 ++ (generatedLabelsIn r.2.1 ++ (generatedLabelsIn r.2.2 ++ known)))
      (parseArms fuel depth es consequent alternate)
  operands : ∀ known depth es, Mints known (fun nodes => generatedLabelsIn nodes ++ known)
    (parseOperands fuel depth es)

theorem minting_zero : Minting 0 where
  sequence _ _ _ _ := by
    rw [parseSequence]
    exact mints_error
  plain _ _ _ _ _ := by
    rw [parsePlain]
    exact mints_error
  folded _ _ _ := by
    rw [parseFolded]
    exact mints_error
  arms _ _ _ _ _ := by
    rw [parseArms]
    exact mints_error
  operands _ _ _ := by
    rw [parseOperands]
    exact mints_error

/-- An instruction other than a block has no label. -/
theorem generatedLabels_of_parseOp {word : String} {site : SExpr} {i : Items} {r : Node × Items}
    (read : parseOp word site i = .ok r) : r.1.generatedLabels = [] := by
  have plain (op : Opcode) (args : List Node) (memArg : Option MemArg) :
      (plainNode op args memArg).generatedLabels = [] := rfl
  unfold parseOp at read
  split at read
  · cases read
  split at read
  · cases read
    exact plain ..
  · cases read
    exact plain ..
  · cases read
  · split at read
    · cases read
    · obtain ⟨index, -, read⟩ := bind_eq_ok_iff.1 read
      split at read
      · cases read
        rfl
      · cases read
        exact plain ..
  · obtain ⟨⟨targets, rest⟩, -, read⟩ := bind_eq_ok_iff.1 read
    dsimp only at read
    split at read
    · cases read
    · cases read
      exact plain ..
  · obtain ⟨signature, -, read⟩ := bind_eq_ok_iff.1 read
    cases read
    rfl
  · obtain ⟨memArg, -, read⟩ := bind_eq_ok_iff.1 read
    cases read
    exact plain ..
  all_goals
    split at read
    · cases read
    · split at read
      · cases read
      · split at read
        · cases read
          exact plain ..
        · cases read

section Step

variable {fuel : Nat} (ih : Minting fuel) (known : List String)
include ih

theorem mints_parseSequence (depth : Nat) (stops : List String) (i : Items) :
    Mints known (fun r => generatedLabelsIn r.1 ++ known) (parseSequence (fuel + 1) depth stops i) := by
  have nothing {stop : Option String} {i : Items} :
      Mints known (fun r : List Node × Option String × Items => generatedLabelsIn r.1 ++ known)
        (pure ([], stop, i)) := mints_pure fun _ => Nat.le_refl _
  rw [parseSequence]
  split
  · exact nothing
  · next _ e rest _ =>
    dsimp only
    split
    · refine (ih.folded known depth e).bind fun here => (ih.sequence _ depth stops _).bind fun r =>
        mints_pure fun name => ?_
      simp only [generatedLabelsIn_append, List.count_append]
      omega
    · split
      · exact mints_error
      · split
        · exact nothing
        · split
          · exact mints_error
          · refine (ih.plain known depth _ _ _).bind fun r => (ih.sequence _ depth stops _).bind fun r' =>
              mints_pure fun name => ?_
            simp only [generatedLabelsIn, List.count_append]
            omega

theorem mints_parsePlain (depth : Nat) (word : String) (site : SExpr) (i : Items) :
    Mints known (fun r => r.1.generatedLabels ++ known) (parsePlain (fuel + 1) depth word site i) := by
  rw [parsePlain]
  split
  · refine .lift fun _ _ => (mints_label i rfl).bind fun named => .lift fun typed _ => ?_
    refine (ih.sequence _ (depth + 1) ["else", "end"] typed.2).bind fun r => ?_
    obtain ⟨consequent, stop, items⟩ := r
    dsimp only
    split
    · exact mints_throw
    · refine (ih.sequence _ _ _ _).bind fun r => ?_
      have done {label : Identifier} {result : Option Valtype} {consequent alternate : List Node}
          {i : Items} : Mints (generatedLabelsIn alternate ++ (generatedLabelsIn consequent ++
            (label.generated ++ known))) (fun r : Node × Items => r.1.generatedLabels ++ known)
            (pure (.ifElse label result consequent alternate, i)) := by
        refine mints_pure fun name => ?_
        simp only [generatedLabels, List.count_append]
        omega
      split
      · exact mints_throw_then
      · exact done
    · refine mints_pure fun name => ?_
      simp only [generatedLabels, generatedLabelsIn, List.count_append, List.count_nil]
      omega
  · split
    · next isBlock =>
      refine .lift fun _ _ => (mints_label i isBlock).bind fun named => .lift fun typed _ => ?_
      refine (ih.sequence _ (depth + 1) ["end"] typed.2).bind fun r => ?_
      have done {label : Identifier} {result : Option Valtype} {body : List Node} {i : Items} :
          Mints (generatedLabelsIn body ++ (label.generated ++ known))
            (fun r : Node × Items => r.1.generatedLabels ++ known)
            (pure (blockNode word label result body, i)) := by
        refine mints_pure fun name => ?_
        rw [generatedLabels_blockNode]
        simp only [List.count_append]
        omega
      dsimp only
      split
      · exact mints_throw_then
      · exact done
    · refine mints_lift fun r read name => ?_
      rw [generatedLabels_of_parseOp read, List.nil_append]

theorem mints_parseFolded (depth : Nat) (e : SExpr) :
    Mints known (fun nodes => generatedLabelsIn nodes ++ known) (parseFolded (fuel + 1) depth e) := by
  rw [parseFolded]
  split
  · exact mints_error
  · dsimp only
    split
    · refine .lift fun _ _ => (mints_label _ rfl).bind fun named => .lift fun typed _ => ?_
      refine (ih.arms (named.1.generated ++ known) (depth + 1) typed.2.rest [] []).bind fun r =>
        mints_pure fun name => ?_
      obtain ⟨condition, consequent, alternate⟩ := r
      simp only [generatedLabelsIn_append, generatedLabelsIn, generatedLabels, List.count_append,
        List.append_nil]
      omega
    · split
      · next isBlock =>
        refine .lift fun _ _ => (mints_label _ isBlock).bind fun named => .lift fun typed _ => ?_
        refine (ih.sequence _ (depth + 1) [] typed.2).bind fun r => mints_pure fun name => ?_
        simp only [generatedLabelsIn, generatedLabels_blockNode, List.count_append, List.append_nil]
        omega
      · split
        · exact mints_error
        · refine .lift fun r read => (ih.operands known depth r.2.rest).bind fun operands =>
            mints_pure fun name => ?_
          simp only [generatedLabelsIn_append, generatedLabelsIn, generatedLabels_of_parseOp read,
            List.append_nil, Nat.le_refl]

theorem mints_parseOperands (depth : Nat) (es : List SExpr) :
    Mints known (fun nodes => generatedLabelsIn nodes ++ known) (parseOperands (fuel + 1) depth es) := by
  cases es with
  | nil =>
    rw [parseOperands]
    exact mints_pure fun _ => Nat.le_refl _
  | cons e rest =>
    rw [parseOperands]
    split
    · refine (ih.folded known depth e).bind fun here => (ih.operands _ depth rest).bind fun nodes =>
        mints_pure fun name => ?_
      simp only [generatedLabelsIn_append, List.count_append]
      omega
    · exact mints_error

theorem mints_parseArms (depth : Nat) (es : List SExpr) (consequent alternate : List Node) :
    Mints (generatedLabelsIn consequent ++ (generatedLabelsIn alternate ++ known))
      (fun r => generatedLabelsIn r.1 ++ (generatedLabelsIn r.2.1 ++ (generatedLabelsIn r.2.2 ++ known)))
      (parseArms (fuel + 1) depth es consequent alternate) := by
  cases es with
  | nil =>
    rw [parseArms]
    exact mints_pure fun _ => Nat.le_refl _
  | cons e rest =>
    rw [parseArms]
    split
    · refine (ih.sequence _ depth [] (.ofExpr e)).bind fun r =>
        (ih.arms known depth rest r.1 alternate).fewer fun name => ?_
      simp only [List.count_append]
      omega
    · split
      · refine (ih.sequence _ depth [] (.ofExpr e)).bind fun r =>
          (ih.arms known depth rest consequent r.1).fewer fun name => ?_
        simp only [List.count_append]
        omega
      · split
        · refine (ih.folded _ depth e).bind fun here =>
            ((ih.arms (generatedLabelsIn here ++ known) depth rest consequent alternate).fewer
              fun name => ?_).bind fun r => mints_pure fun name => ?_
          · simp only [List.count_append]
            omega
          · obtain ⟨condition, consequent, alternate⟩ := r
            simp only [generatedLabelsIn_append, List.count_append]
            omega
        · exact mints_error

end Step

/-- The readers call each other with less fuel, so that they mint labels under one fuel after the other. -/
theorem minting (fuel : Nat) : Minting fuel := by
  induction fuel with
  | zero => exact minting_zero
  | succ fuel ih =>
    exact ⟨mints_parseSequence ih, mints_parsePlain ih, mints_parseFolded ih, mints_parseArms ih,
      mints_parseOperands ih⟩

theorem mints_parseBody (known : List String) (fuel : Nat) (i : Items) :
    Mints known (fun nodes => generatedLabelsIn nodes ++ known) (parseBody fuel i) :=
  ((minting fuel).sequence known 0 [] i).bind fun _ => mints_pure fun _ => Nat.le_refl _

/-! ## Fields -/

/-- Instructions without generated labels have none in sequence. -/
theorem generatedLabelsIn_eq_nil {nodes : List Node} (each : ∀ node ∈ nodes, node.generatedLabels = []) :
    generatedLabelsIn nodes = [] := by
  induction nodes with
  | nil => rw [generatedLabelsIn]
  | cons node nodes ih =>
    obtain ⟨here, others⟩ := List.forall_mem_cons.1 each
    rw [generatedLabelsIn, here, ih others, List.append_nil]

/-- Fields whose instructions have no labels have none. -/
theorem generatedLabelsIn_of_readFields {nodes : List Node}
    (fields : ReadFields (fun code => generatedLabelsIn code = []) nodes) : generatedLabelsIn nodes = [] := by
  refine generatedLabelsIn_eq_nil fun node listed => ?_
  cases fields node listed with
  | func _ inside => rwa [generatedLabels]
  | global inside => rwa [generatedLabels]
  | data _ inside => rwa [generatedLabels]
  | elem _ inside _ => rwa [generatedLabels]
  | _ => rfl

section Fields

variable (known : List String) (fuel : Nat)

/-- A definition in front of its exports has the labels that its instructions have. -/
theorem mints_definition {known : List String} {node : Node} {exports : List Node} (body : List Node)
    (none : generatedLabelsIn exports = []) (same : node.generatedLabels = generatedLabelsIn body) :
    Mints (generatedLabelsIn body ++ known) (fun nodes => generatedLabelsIn nodes ++ known)
      (pure (node :: exports)) := by
  refine mints_pure fun name => ?_
  rw [generatedLabelsIn, same, none, List.append_nil]

/-- The name of a definition, the exports and the import inside it have no labels. -/
theorem mints_readImportable (stem : String) (kind : ExportKind)
    {imported : Identifier → List Node → String × String → Items → ParseM (List Node)}
    {defined : Identifier → List Node → Items → ParseM (List Node)}
    (imports : ∀ name exports origin i, generatedLabelsIn exports = [] →
      Mints known (fun nodes => generatedLabelsIn nodes ++ known) (imported name exports origin i))
    (defines : ∀ name exports i, generatedLabelsIn exports = [] →
      Mints known (fun nodes => generatedLabelsIn nodes ++ known) (defined name exports i)) (e : SExpr) :
    Mints known (fun nodes => generatedLabelsIn nodes ++ known)
      (readImportable stem kind imported defined e) := by
  unfold readImportable
  refine (mints_name _ stem).bind fun named => .lift fun r taken => ?_
  have none : generatedLabelsIn r.1 = [] := generatedLabelsIn_of_readFields (fields_of_takeExports taken)
  dsimp only
  split
  · exact .lift fun origin _ => imports _ _ origin _ none
  · exact defines _ _ _ none

theorem mints_parseFunc (e : SExpr) :
    Mints known (fun nodes => generatedLabelsIn nodes ++ known) (parseFunc fuel e) := by
  rw [parseFunc_eq_readImportable]
  refine mints_readImportable known _ _ (fun name exports origin i none => ?_) (fun name exports i none => ?_) e
  · exact .lift fun _ _ => .lift fun _ _ => mints_definition [] none rfl
  · refine .lift fun _ _ => ?_
    dsimp only
    rw [lift_mapM]
    refine .lift fun locals _ => (mints_parseBody known fuel _).bind fun body => ?_
    exact mints_definition body none (by rw [generatedLabels])

theorem mints_parseGlobal (e : SExpr) :
    Mints known (fun nodes => generatedLabelsIn nodes ++ known) (parseGlobal fuel e) := by
  rw [parseGlobal_eq_readImportable]
  refine mints_readImportable known _ _ (fun name exports origin i none => ?_) (fun name exports i none => ?_) e
  · exact .lift fun _ _ => .lift fun _ _ => mints_definition [] none rfl
  · refine .lift fun _ _ => (mints_parseBody known fuel _).bind fun init => ?_
    exact mints_definition init none (by rw [generatedLabels])

theorem mints_parseMemory (e : SExpr) :
    Mints known (fun nodes => generatedLabelsIn nodes ++ known) (parseMemory e) := by
  rw [parseMemory_eq_readImportable]
  refine mints_readImportable known _ _ (fun name exports origin i none => ?_) (fun name exports i none => ?_) e
  · exact .lift fun _ _ => .lift fun _ _ => mints_definition [] none rfl
  · unfold definedMemory
    split
    · refine .lift fun _ _ => .lift fun bytes _ => mints_definition [] ?_ rfl
      rw [generatedLabelsIn, none]
      rfl
    · exact .lift fun _ _ => .lift fun _ _ => mints_definition [] none rfl

theorem mints_parseTable (e : SExpr) :
    Mints known (fun nodes => generatedLabelsIn nodes ++ known) (parseTable e) := by
  rw [parseTable_eq_readImportable]
  refine mints_readImportable known _ _ (fun name exports origin i none => ?_) (fun name exports i none => ?_) e
  · exact .lift fun _ _ => .lift fun _ _ => .lift fun _ _ => mints_definition [] none rfl
  · unfold definedTable
    split
    · exact .lift fun _ _ => .lift fun _ _ => .lift fun _ _ => mints_definition [] none rfl
    · exact .lift fun _ _ => .lift fun _ _ => .lift fun _ _ => mints_definition [] none rfl

theorem mints_parseOffset (i : Items) (context : String) :
    Mints known (fun r => generatedLabelsIn r.1 ++ known) (parseOffset fuel i context) := by
  unfold parseOffset
  split
  · exact (mints_parseBody known fuel _).bind fun _ => mints_pure fun _ => Nat.le_refl _
  · split
    · exact mints_throw
    · split
      · exact ((minting fuel).folded known 0 _).bind fun _ => mints_pure fun _ => Nat.le_refl _
      · exact mints_error

theorem mints_parseData (e : SExpr) :
    Mints known (fun nodes => generatedLabelsIn nodes ++ known) (parseData fuel e) := by
  refine .lift fun target _ => (mints_parseOffset known fuel _ _).bind fun r => .lift fun bytes _ =>
    mints_pure fun name => ?_
  rw [generatedLabelsIn, generatedLabels, generatedLabelsIn, List.append_nil]

theorem mints_parseElem (e : SExpr) :
    Mints known (fun nodes => generatedLabelsIn nodes ++ known) (parseElem fuel e) := by
  refine .lift fun target _ => (mints_parseOffset known fuel _ _).bind fun r => ?_
  dsimp only
  rw [lift_mapM]
  refine .lift fun funcs _ => mints_pure fun name => ?_
  rw [generatedLabelsIn, generatedLabels, generatedLabelsIn, List.append_nil]

theorem mints_parseField (e : SExpr) :
    Mints known (fun nodes => generatedLabelsIn nodes ++ known) (parseField fuel e) := by
  have plain {r : Parsed (List Node)}
      (fields : ∀ nodes, r = .ok nodes → ReadFields (fun code => generatedLabelsIn code = []) nodes) :
      Mints known (fun nodes => generatedLabelsIn nodes ++ known) (liftM r) := by
    refine mints_lift fun nodes read name => ?_
    rw [generatedLabelsIn_of_readFields (fields nodes read), List.nil_append]
  unfold parseField
  split
  · exact plain fun _ => fields_of_parseType
  · exact plain fun _ => fields_of_parseImport
  · exact plain fun _ => fields_of_parseExport
  · exact mints_parseFunc known fuel e
  · exact mints_parseGlobal known fuel e
  · exact mints_parseMemory known e
  · exact mints_parseTable known e
  · exact mints_parseData known fuel e
  · exact mints_parseElem known fuel e
  · exact plain fun _ => fields_of_parseStart
  · exact mints_error

theorem mints_parseFields (es : List SExpr) :
    Mints known (fun nodes => generatedLabelsIn nodes ++ known) (parseFields fuel es) := by
  induction es generalizing known with
  | nil => exact mints_pure fun _ => Nat.le_refl _
  | cons e es ih =>
    refine (mints_parseField known fuel e).bind fun nodes => (ih _).bind fun rest => mints_pure fun name => ?_
    simp only [generatedLabelsIn_append, List.count_append]
    omega

theorem mints_parseModules (es : List SExpr) :
    Mints known (fun nodes => generatedLabelsIn nodes ++ known) (parseModules fuel es) := by
  induction es generalizing known with
  | nil => exact mints_pure fun _ => Nat.le_refl _
  | cons e es ih =>
    have first : Mints known (fun node => node.generatedLabels ++ known) (parseModule fuel e) :=
      (mints_parseFields known fuel _).bind fun fields => mints_pure fun _ => by rw [generatedLabels]
    refine first.bind fun node => (ih _).bind fun rest => mints_pure fun name => ?_
    simp only [generatedLabelsIn, List.count_append]
    omega

/-- No label is generated twice in a program. -/
theorem nodup_generatedLabels_of_parse {source : String} {p : Program} (read : parse source = .ok p) :
    (generatedLabelsIn p.body).Nodup := by
  obtain ⟨es, g, -, read⟩ := parse_eq_ok_iff.1 read
  have mints (fuel : Nat) : Mints [] (fun p : Program => generatedLabelsIn p.body) (parseProgram fuel es) := by
    unfold parseProgram
    split
    · refine (mints_parseModules [] fuel es).bind fun _ => mints_pure fun _ => ?_
      rw [List.append_nil]
    · refine (mints_parseFields [] fuel es).bind fun fields => mints_pure fun name => ?_
      simp only [generatedLabelsIn, generatedLabels, List.append_nil, Nat.le_refl]
  exact (mints _ .empty p g ⟨List.nodup_nil, List.forall_mem_nil _⟩ read).once

end Fields

end WasmEngine.Wat
