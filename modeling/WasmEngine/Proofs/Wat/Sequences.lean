import WasmEngine.Proofs.Float.Patterns
import WasmEngine.Proofs.Syntax.Encodable
import WasmEngine.Proofs.Wat.Importable

/-!
# Texts are read piece by piece

A property of instructions that the readers of single instructions and blocks ensure holds of all
instructions of a program that is read from a text (`modules_of_parse`).
-/

namespace WasmEngine.Wat

open Node Outcome

variable {α β : Type}

/-! ## Readers that take no names -/

theorem lift_bind (r : Parsed α) (f : α → Parsed β) :
    (liftM (r >>= f) : ParseM β) = liftM r >>= fun a => liftM (f a) := by
  funext g
  cases r <;> rfl

theorem eq_ok_of_lift {r : Parsed α} {a : α} {g g' : NameGenerator}
    (gives : (liftM r : ParseM α) g = .ok (a, g')) : r = .ok a := by
  obtain ⟨b, here, same⟩ := bind_eq_ok_iff.1 gives
  cases same
  exact here

theorem lift_pure (a : α) : (liftM (pure a : Parsed α) : ParseM α) = pure a := rfl

/-- Reading a list without names reads its elements. -/
theorem lift_mapM (f : α → Parsed β) (as : List α) :
    as.mapM (fun a => (liftM (f a) : ParseM β)) = liftM (as.mapM f) := by
  induction as with
  | nil => rfl
  | cons a as ih => simp only [List.mapM_cons, lift_bind, lift_pure, ih]

/-! ## Properties of what is read -/

/-- What a reader gives, if it gives anything, has a property. -/
def Reads (p : α → Prop) (r : ParseM α) : Prop := ∀ g a g', r g = .ok (a, g') → p a

variable {p : α → Prop} {q : β → Prop} {x : ParseM α} {f : α → ParseM β}

/-- Readings in sequence read what the second does from what the first one reads. -/
theorem Reads.bind (first : Reads p x) (rest : ∀ a, p a → Reads q (f a)) : Reads q (x >>= f) := by
  intro g b g' ends
  obtain ⟨⟨a, mid⟩, here, there⟩ := bind_eq_ok_iff.1 ends
  exact rest a (first g a mid here) mid b g' there

/-- What is read first does not matter. -/
theorem Reads.then (rest : ∀ a, Reads q (f a)) : Reads q (x >>= f) := by
  have anything : Reads (fun _ => True) x := fun _ _ _ _ => trivial
  exact anything.bind fun a _ => rest a

theorem reads_pure {a : α} (now : p a) : Reads p (pure a) := by
  intro g b g' ends
  cases ends
  exact now

theorem reads_lift {r : Parsed α} (gives : ∀ a, r = .ok a → p a) : Reads p (liftM r) := by
  intro g b g' ends
  obtain ⟨a, here, there⟩ := bind_eq_ok_iff.1 ends
  cases there
  exact gives b here

theorem reads_throw {e : ParseError} : Reads p (throw e) := by
  intro g b g' ends
  cases ends

theorem reads_error {e : ParseError} : Reads p (liftM (.error e : Parsed α)) :=
  reads_lift nofun

theorem reads_mapM (each : ∀ a, Reads q (f a)) (as : List α) :
    Reads (fun bs => ∀ b ∈ bs, q b) (as.mapM f) := by
  induction as with
  | nil => exact reads_pure nofun
  | cons a as ih =>
    rw [List.mapM_cons]
    exact (each a).bind fun b first => ih.bind fun bs others =>
      reads_pure (List.forall_mem_cons.2 ⟨first, others⟩)

/-! ## Sequences -/

/-- A property of instructions inside `depth` blocks that holds of what is read if it holds of its
parts.  The condition of a folded `if` is read as if it stood inside the block. -/
structure Closed (code : Nat → List Node → Prop) : Prop where
  nil : ∀ depth, code depth []
  append : ∀ {depth : Nat} {nodes others : List Node}, code depth nodes → code depth others →
    code depth (nodes ++ others)
  outer : ∀ {depth : Nat} {nodes : List Node}, code (depth + 1) nodes → code depth nodes
  op : ∀ {depth : Nat} {word : String} {site : SExpr} {i items : Items} {node : Node},
    word ≠ "end" → word ≠ "else" → parseOp word site i = .ok (node, items) → code depth [node]
  block : ∀ {depth : Nat} {body : List Node} (word : String) (label : Identifier)
    (result : Option Valtype), depth < Binary.maxNesting → code (depth + 1) body →
      code depth [blockNode word label result body]
  ifElse : ∀ {depth : Nat} {consequent alternate : List Node} (label : Identifier)
    (result : Option Valtype), depth < Binary.maxNesting → code (depth + 1) consequent →
      code (depth + 1) alternate → code depth [.ifElse label result consequent alternate]

/-- What the readers of instructions give has a property, whatever fuel they have. -/
structure Reading (code : Nat → List Node → Prop) (fuel : Nat) : Prop where
  sequence : ∀ depth stops i, Reads (fun r => code depth r.1) (parseSequence fuel depth stops i)
  plain : ∀ depth word site i, word ≠ "end" → word ≠ "else" →
    Reads (fun r => code depth [r.1]) (parsePlain fuel depth word site i)
  folded : ∀ depth e, Reads (code depth) (parseFolded fuel depth e)
  arms : ∀ depth es consequent alternate, code depth consequent → code depth alternate →
    Reads (fun r => code depth r.1 ∧ code depth r.2.1 ∧ code depth r.2.2)
      (parseArms fuel depth es consequent alternate)
  operands : ∀ depth es, Reads (code depth) (parseOperands fuel depth es)

theorem reads_requireDepth (depth : Nat) (site : SExpr) :
    Reads (fun _ => depth < Binary.maxNesting) (liftM (requireDepth depth site)) := by
  refine reads_lift fun _ allowed => ?_
  unfold requireDepth at allowed
  split at allowed
  · cases allowed
  · omega

section Sequences

variable {code : Nat → List Node → Prop}

theorem reading_zero : Reading code 0 where
  sequence _ _ _ := by
    rw [parseSequence]
    exact reads_error
  plain _ _ _ _ _ _ := by
    rw [parsePlain]
    exact reads_error
  folded _ _ := by
    rw [parseFolded]
    exact reads_error
  arms _ _ _ _ _ _ := by
    rw [parseArms]
    exact reads_error
  operands _ _ := by
    rw [parseOperands]
    exact reads_error

variable (closed : Closed code) {fuel : Nat} (ih : Reading code fuel)
include closed ih

theorem reads_parseSequence (depth : Nat) (stops : List String) (i : Items) :
    Reads (fun r => code depth r.1) (parseSequence (fuel + 1) depth stops i) := by
  rw [parseSequence]
  split
  · exact reads_pure (closed.nil depth)
  · next _ e rest _ =>
    dsimp only
    split
    · refine (ih.folded depth e).bind fun here first => ?_
      refine (ih.sequence depth stops _).bind fun r others => ?_
      exact reads_pure (closed.append first others)
    · split
      · exact reads_error
      · next word _ =>
        split
        · exact reads_pure (closed.nil depth)
        · split
          · exact reads_error
          · next stops =>
            have plain : word ≠ "end" ∧ word ≠ "else" := by simpa using stops
            refine (ih.plain depth word e _ plain.1 plain.2).bind fun r first => ?_
            refine (ih.sequence depth _ r.2).bind fun r' others => ?_
            exact reads_pure (closed.append first others)

theorem reads_parsePlain (depth : Nat) (word : String) (site : SExpr) (i : Items)
    (notEnd : word ≠ "end") (notElse : word ≠ "else") :
    Reads (fun r => code depth [r.1]) (parsePlain (fuel + 1) depth word site i) := by
  rw [parsePlain]
  split
  · refine (reads_requireDepth depth site).bind fun _ nested => .then fun named => .then fun typed => ?_
    refine (ih.sequence (depth + 1) ["else", "end"] typed.2).bind fun r whenTrue => ?_
    obtain ⟨consequent, stop, items⟩ := r
    dsimp only
    split
    · exact reads_throw
    · refine (ih.sequence _ _ _).bind fun r whenFalse => ?_
      obtain ⟨alternate, stop, items⟩ := r
      dsimp only
      split
      · exact .then fun _ => reads_pure (closed.ifElse _ _ nested whenTrue whenFalse)
      · exact reads_pure (closed.ifElse _ _ nested whenTrue whenFalse)
    · exact reads_pure (closed.ifElse _ _ nested whenTrue (closed.nil _))
  · split
    · refine (reads_requireDepth depth site).bind fun _ nested =>
        .then fun named => .then fun typed => ?_
      refine (ih.sequence (depth + 1) ["end"] typed.2).bind fun r inside => ?_
      obtain ⟨body, stop, items⟩ := r
      dsimp only
      split
      · exact .then fun _ => reads_pure (closed.block _ _ _ nested inside)
      · exact reads_pure (closed.block _ _ _ nested inside)
    · exact reads_lift fun r read => closed.op notEnd notElse read

theorem reads_parseFolded (depth : Nat) (e : SExpr) :
    Reads (code depth) (parseFolded (fuel + 1) depth e) := by
  rw [parseFolded]
  split
  · exact reads_error
  · next word _ =>
    dsimp only
    split
    · refine (reads_requireDepth depth e).bind fun _ nested => .then fun named => .then fun typed => ?_
      refine (ih.arms (depth + 1) typed.2.rest [] [] (closed.nil _) (closed.nil _)).bind
        fun r inside => ?_
      exact reads_pure (closed.append (closed.outer inside.1)
        (closed.ifElse _ _ nested inside.2.1 inside.2.2))
    · split
      · refine (reads_requireDepth depth e).bind fun _ nested =>
          .then fun named => .then fun typed => ?_
        refine (ih.sequence (depth + 1) [] typed.2).bind fun r inside => ?_
        exact reads_pure (closed.block _ _ _ nested inside)
      · split
        · exact reads_error
        · next stops =>
          have plain : (word ≠ "then" ∧ word ≠ "else") ∧ word ≠ "end" := by simpa using stops
          have op : Reads (fun r : Node × Items => code depth [r.1])
              (liftM (parseOp word e (.ofExpr e))) :=
            reads_lift fun _ read => closed.op plain.2 plain.1.2 read
          refine op.bind fun r last => ?_
          refine (ih.operands depth r.2.rest).bind fun operands inside => ?_
          exact reads_pure (closed.append inside last)

theorem reads_parseArms (depth : Nat) (es : List SExpr) (consequent alternate : List Node)
    (whenTrue : code depth consequent) (whenFalse : code depth alternate) :
    Reads (fun r => code depth r.1 ∧ code depth r.2.1 ∧ code depth r.2.2)
      (parseArms (fuel + 1) depth es consequent alternate) := by
  cases es with
  | nil =>
    rw [parseArms]
    exact reads_pure ⟨closed.nil depth, whenTrue, whenFalse⟩
  | cons e rest =>
    rw [parseArms]
    split
    · refine (ih.sequence depth [] (.ofExpr e)).bind fun r inside => ?_
      exact ih.arms depth rest r.1 alternate inside whenFalse
    · split
      · refine (ih.sequence depth [] (.ofExpr e)).bind fun r inside => ?_
        exact ih.arms depth rest consequent r.1 whenTrue inside
      · split
        · refine (ih.folded depth e).bind fun here first => ?_
          refine (ih.arms depth rest consequent alternate whenTrue whenFalse).bind
            fun r inside => ?_
          exact reads_pure ⟨closed.append first inside.1, inside.2⟩
        · exact reads_error

theorem reads_parseOperands (depth : Nat) (es : List SExpr) :
    Reads (code depth) (parseOperands (fuel + 1) depth es) := by
  cases es with
  | nil =>
    rw [parseOperands]
    exact reads_pure (closed.nil depth)
  | cons e rest =>
    rw [parseOperands]
    split
    · refine (ih.folded depth e).bind fun here first => ?_
      refine (ih.operands depth rest).bind fun nodes others => ?_
      exact reads_pure (closed.append first others)
    · exact reads_error

omit ih

/-- The readers call each other with less fuel, so that the property goes from one fuel to the
next. -/
theorem reading (fuel : Nat) : Reading code fuel := by
  induction fuel with
  | zero => exact reading_zero
  | succ fuel ih =>
    exact ⟨reads_parseSequence closed ih, reads_parsePlain closed ih, reads_parseFolded closed ih,
      reads_parseArms closed ih, reads_parseOperands closed ih⟩

theorem reads_parseBody (fuel : Nat) (i : Items) : Reads (code 0) (parseBody fuel i) :=
  ((reading closed fuel).sequence 0 [] i).bind fun _ inside => reads_pure inside

end Sequences

/-! ## Numbers and indices -/

/-- A 32-bit number is below `2 ^ 32`. -/
theorem lt_of_parseU32? {s : String} {n : Nat} (read : parseU32? s = some n) : n < UInt32.size := by
  unfold parseU32? at read
  split at read
  · cases read
  · cases read
  · exact of_decide_eq_true (Option.filter_eq_some_iff.1 read).2

/-- An index that is read is spelled. -/
theorem spelled_of_parseIndex {e : SExpr} {i : Index} (read : parseIndex e = .ok i) :
    i.IsSpelled := by
  unfold parseIndex at read
  split at read
  · cases read
    trivial
  · split at read
    · next n number =>
      cases read
      exact ⟨n, rfl, lt_of_parseU32? number⟩
    · cases read
  · cases read

theorem spelled_of_mapM {es : List SExpr} {is : List Index} (read : es.mapM parseIndex = .ok is) :
    ∀ i ∈ is, i.IsSpelled := by
  induction es generalizing is with
  | nil =>
    cases read
    exact nofun
  | cons e es ih =>
    rw [List.mapM_cons] at read
    obtain ⟨i, first, read⟩ := bind_eq_ok_iff.1 read
    obtain ⟨rest, others, read⟩ := bind_eq_ok_iff.1 read
    cases read
    exact List.forall_mem_cons.2 ⟨spelled_of_parseIndex first, ih others⟩

/-- An optional index is spelled. -/
theorem spelled_of_parseOptionalIndex {i : Items} {r : Index × Items}
    (read : parseOptionalIndex i = .ok r) : r.1.IsSpelled := by
  have zero : (Index.ofNat 0).IsSpelled := ⟨0, rfl, by decide⟩
  unfold parseOptionalIndex at read
  split at read
  · split at read
    · obtain ⟨index, first, read⟩ := bind_eq_ok_iff.1 read
      cases read
      exact spelled_of_parseIndex first
    · cases read
      exact zero
  · cases read
    exact zero

/-- Limits are read within 32 bits. -/
theorem limits_of_parseLimits {i : Items} {r : Limits × Items} (read : parseLimits i = .ok r) :
    Binary.Decode.IsLimits r.1 := by
  unfold parseLimits at read
  dsimp only at read
  split at read
  · cases read
  · next min lower =>
    obtain ⟨_, -, lower⟩ := Option.bind_eq_some_iff.1 lower
    have fits := lt_of_parseU32? lower
    split at read
    · cases read
      exact ⟨fits, fun _ same => by cases same⟩
    · split at read
      · cases read
        exact ⟨fits, fun _ same => by cases same⟩
      · split at read
        · next max upper =>
          cases read
          exact ⟨fits, fun _ same => Option.some.inj same ▸ lt_of_parseU32? upper⟩
        · cases read

/-! ## Fields -/

/-- Fields whose references are spelled and whose instructions have a property. -/
abbrev ReadFields (code : List Node → Prop) : List Node → Prop :=
  AreFields Index.IsSpelled (fun _ => True) code

section Fields

variable {code : List Node → Prop}

/-- The exports taken from a definition are fields. -/
theorem fields_of_takeExports {i : Items} {kind : ExportKind} {id : Identifier}
    {r : List Node × Items} (taken : takeExports i kind id = .ok r) : ReadFields code r.1 := by
  unfold takeExports at taken
  obtain ⟨names, -, taken⟩ := bind_eq_ok_iff.1 taken
  obtain rfl := pure_eq_ok_iff.1 taken
  intro node inside
  obtain ⟨name, -, rfl⟩ := List.mem_map.1 inside
  exact .moduleExport trivial

theorem reads_takeExports (code : List Node → Prop) (i : Items) (kind : ExportKind) (id : Identifier) :
    Reads (fun r : List Node × Items => ReadFields code r.1) (liftM (takeExports i kind id)) :=
  reads_lift fun _ taken => fields_of_takeExports taken

/-- A field that does not depend on others before some exports. -/
theorem readFields_cons {field : Node} {fields : List Node}
    (first : field.IsField Index.IsSpelled (fun _ => True) code [])
    (others : ReadFields code fields) : ReadFields code (field :: fields) :=
  AreFields.append (.singleton first) others

/-- A type that is read is a field. -/
theorem fields_of_parseType {e : SExpr} {nodes : List Node} (read : parseType e = .ok nodes) :
    ReadFields code nodes := by
  unfold parseType at read
  dsimp only at read
  split at read
  · cases read
  · obtain ⟨_, -, read⟩ := bind_eq_ok_iff.1 read
    obtain ⟨_, -, read⟩ := bind_eq_ok_iff.1 read
    obtain ⟨_, -, read⟩ := bind_eq_ok_iff.1 read
    obtain rfl := pure_eq_ok_iff.1 read
    exact .singleton (.typeDef _)

/-- What an import describes is written out. -/
theorem written_of_parseImportDescr {module name : String} {e : SExpr}
    {r : ImportDescr × Option Identifier × Items} (read : parseImportDescr module name e = .ok r) :
    r.1.IsWritten fun _ => True := by
  unfold parseImportDescr at read
  dsimp only at read
  split at read
  · obtain ⟨_, -, read⟩ := bind_eq_ok_iff.1 read
    obtain rfl := pure_eq_ok_iff.1 read
    trivial
  · obtain ⟨_, -, read⟩ := bind_eq_ok_iff.1 read
    obtain rfl := pure_eq_ok_iff.1 read
    trivial
  · obtain ⟨_, limits, read⟩ := bind_eq_ok_iff.1 read
    obtain rfl := pure_eq_ok_iff.1 read
    exact limits_of_parseLimits limits
  · obtain ⟨_, limits, read⟩ := bind_eq_ok_iff.1 read
    obtain ⟨_, -, read⟩ := bind_eq_ok_iff.1 read
    obtain rfl := pure_eq_ok_iff.1 read
    exact limits_of_parseLimits limits
  · cases read

/-- An import that is read is a field. -/
theorem fields_of_parseImport {e : SExpr} {nodes : List Node} (read : parseImport e = .ok nodes) :
    ReadFields code nodes := by
  unfold parseImport at read
  obtain ⟨_, -, read⟩ := bind_eq_ok_iff.1 read
  obtain ⟨_, -, read⟩ := bind_eq_ok_iff.1 read
  dsimp only at read
  split at read
  · cases read
  · obtain ⟨_, -, read⟩ := bind_eq_ok_iff.1 read
    obtain ⟨_, descr, read⟩ := bind_eq_ok_iff.1 read
    obtain ⟨_, -, read⟩ := bind_eq_ok_iff.1 read
    obtain rfl := pure_eq_ok_iff.1 read
    exact .singleton (.moduleImport (written_of_parseImportDescr descr))

/-- An export that is read is a field. -/
theorem fields_of_parseExport {e : SExpr} {nodes : List Node} (read : parseExport e = .ok nodes) :
    ReadFields code nodes := by
  unfold parseExport at read
  obtain ⟨_, -, read⟩ := bind_eq_ok_iff.1 read
  dsimp only at read
  split at read
  · cases read
  · obtain ⟨_, -, read⟩ := bind_eq_ok_iff.1 read
    split at read
    · cases read
    · split at read
      · cases read
      · obtain ⟨_, index, read⟩ := bind_eq_ok_iff.1 read
        obtain ⟨_, -, read⟩ := bind_eq_ok_iff.1 read
        obtain rfl := pure_eq_ok_iff.1 read
        exact .singleton (.moduleExport (spelled_of_parseIndex index))

/-- A start function that is read is a field. -/
theorem fields_of_parseStart {e : SExpr} {nodes : List Node} (read : parseStart e = .ok nodes) :
    ReadFields code nodes := by
  unfold parseStart at read
  split at read
  · cases read
  · obtain ⟨_, index, read⟩ := bind_eq_ok_iff.1 read
    obtain ⟨_, -, read⟩ := bind_eq_ok_iff.1 read
    obtain rfl := pure_eq_ok_iff.1 read
    exact .singleton (.start (spelled_of_parseIndex index))

/-- The name of a definition, the exports and the import inside it leave its rest to be read. -/
theorem reads_readImportable (stem : String) (kind : ExportKind)
    {imported : Identifier → List Node → String × String → Items → ParseM (List Node)}
    {defined : Identifier → List Node → Items → ParseM (List Node)}
    (imports : ∀ name exports origin i, ReadFields code exports →
      Reads (ReadFields code) (imported name exports origin i))
    (defines : ∀ name exports i, ReadFields code exports → Reads (ReadFields code) (defined name exports i))
    (e : SExpr) : Reads (ReadFields code) (readImportable stem kind imported defined e) := by
  unfold readImportable
  refine .then fun named => (reads_takeExports code named.2 kind named.1).bind fun r exports => ?_
  dsimp only
  split
  · exact .then fun origin => imports _ _ origin _ exports
  · exact defines _ _ _ exports

theorem reads_parseLimits (i : Items) :
    Reads (fun r : Limits × Items => Binary.Decode.IsLimits r.1) (liftM (parseLimits i)) :=
  reads_lift fun _ read => limits_of_parseLimits read

theorem reads_takeElements (i : Items) :
    Reads (fun r : List Index × Items => ∀ j ∈ r.1, j.IsSpelled) (liftM (takeElements i)) := by
  refine reads_lift fun r read => ?_
  unfold takeElements at read
  split at read
  · cases read
    exact nofun
  · obtain ⟨_, all, read⟩ := bind_eq_ok_iff.1 read
    cases read
    exact spelled_of_mapM all

theorem reads_parseTable (e : SExpr) : Reads (ReadFields code) (parseTable e) := by
  rw [parseTable_eq_readImportable]
  refine reads_readImportable _ _ (fun name exports origin i listed => ?_) (fun name exports i listed => ?_) e
  · exact (reads_parseLimits i).bind fun _ written => .then fun _ => .then fun _ =>
      reads_pure (readFields_cons (.moduleImport written) listed)
  · unfold definedTable
    split
    · exact (reads_parseLimits i).bind fun _ written => .then fun _ => .then fun _ =>
        reads_pure (readFields_cons (.table (.inl written) nofun) listed)
    · exact .then fun _ => (reads_takeElements _).bind fun _ spelled => .then fun _ =>
        reads_pure (readFields_cons (.table (.inr rfl) spelled) listed)

variable {code : Nat → List Node → Prop} (closed : Closed code)

theorem reads_parseMemory (zero : code 0 zeroOffset) (e : SExpr) :
    Reads (ReadFields (code 0)) (parseMemory e) := by
  rw [parseMemory_eq_readImportable]
  refine reads_readImportable _ _ (fun name exports origin i listed => ?_) (fun name exports i listed => ?_) e
  · exact (reads_parseLimits i).bind fun _ written => .then fun _ =>
      reads_pure (readFields_cons (.moduleImport written) listed)
  · unfold definedMemory
    split
    · refine .then fun _ => .then fun bytes => reads_pure ?_
      refine @AreFields.append _ _ _ [_, _] _ (List.forall_mem_cons.2 ⟨.memory (.inr ?_),
        List.forall_mem_singleton.2 (.data trivial zero)⟩) listed
      exact ⟨bytes.length, List.mem_singleton.2 rfl, rfl⟩
    · exact (reads_parseLimits _).bind fun _ written => .then fun _ =>
        reads_pure (readFields_cons (.memory (.inl written)) listed)

include closed

theorem reads_parseFunc (fuel : Nat) (e : SExpr) : Reads (ReadFields (code 0)) (parseFunc fuel e) := by
  rw [parseFunc_eq_readImportable]
  refine reads_readImportable _ _ (fun name exports origin i listed => ?_) (fun name exports i listed => ?_) e
  · exact .then fun _ => .then fun _ => reads_pure (readFields_cons (.moduleImport trivial) listed)
  · refine .then fun _ => .then fun _ => (reads_parseBody closed fuel _).bind fun body inside => ?_
    exact reads_pure (readFields_cons (.func trivial inside) listed)

theorem reads_parseGlobal (fuel : Nat) (e : SExpr) :
    Reads (ReadFields (code 0)) (parseGlobal fuel e) := by
  rw [parseGlobal_eq_readImportable]
  refine reads_readImportable _ _ (fun name exports origin i listed => ?_) (fun name exports i listed => ?_) e
  · exact .then fun _ => .then fun _ => reads_pure (readFields_cons (.moduleImport trivial) listed)
  · refine .then fun _ => (reads_parseBody closed fuel _).bind fun body inside => ?_
    exact reads_pure (readFields_cons (.global inside) listed)

theorem reads_parseOffset (fuel : Nat) (i : Items) (context : String) :
    Reads (fun r => code 0 r.1) (parseOffset fuel i context) := by
  unfold parseOffset
  split
  · exact (reads_parseBody closed fuel _).bind fun _ inside => reads_pure inside
  · split
    · exact reads_throw
    · split
      · exact ((reading closed fuel).folded 0 _).bind fun _ inside => reads_pure inside
      · exact reads_error

theorem reads_parseData (fuel : Nat) (e : SExpr) :
    Reads (ReadFields (code 0)) (parseData fuel e) := by
  unfold parseData
  refine (reads_lift fun _ read => spelled_of_parseOptionalIndex read).bind fun target spelled => ?_
  refine (reads_parseOffset closed fuel _ _).bind fun r inside => ?_
  exact .then fun _ => reads_pure (.singleton (.data spelled inside))

theorem reads_parseElem (fuel : Nat) (e : SExpr) :
    Reads (ReadFields (code 0)) (parseElem fuel e) := by
  unfold parseElem
  refine (reads_lift fun _ read => spelled_of_parseOptionalIndex read).bind fun target spelled => ?_
  refine (reads_parseOffset closed fuel _ _).bind fun r inside => ?_
  refine (reads_mapM (fun e => reads_lift fun _ read => spelled_of_parseIndex read) _).bind
    fun funcs all => ?_
  exact reads_pure (.singleton (.elem spelled inside all))

variable (zero : code 0 zeroOffset)
include zero

theorem reads_parseField (fuel : Nat) (e : SExpr) :
    Reads (ReadFields (code 0)) (parseField fuel e) := by
  unfold parseField
  split
  · exact reads_lift fun _ read => fields_of_parseType read
  · exact reads_lift fun _ read => fields_of_parseImport read
  · exact reads_lift fun _ read => fields_of_parseExport read
  · exact reads_parseFunc closed fuel e
  · exact reads_parseGlobal closed fuel e
  · exact reads_parseMemory zero e
  · exact reads_parseTable e
  · exact reads_parseData closed fuel e
  · exact reads_parseElem closed fuel e
  · exact reads_lift fun _ read => fields_of_parseStart read
  · exact reads_error

theorem reads_parseFields (fuel : Nat) (es : List SExpr) :
    Reads (ReadFields (code 0)) (parseFields fuel es) := by
  induction es with
  | nil => exact reads_pure .nil
  | cons e es ih =>
    refine (reads_parseField closed zero fuel e).bind fun nodes first => ih.bind fun rest others => ?_
    exact reads_pure (first.append others)

/-- A module that was read. -/
def ReadModule (code : List Node → Prop) (node : Node) : Prop :=
  ∃ id fields, node = .module id fields none ∧ ReadFields code fields

theorem reads_parseModules (fuel : Nat) (es : List SExpr) :
    Reads (fun nodes => ∀ node ∈ nodes, ReadModule (code 0) node) (parseModules fuel es) := by
  induction es with
  | nil => exact reads_pure nofun
  | cons e es ih =>
    have first : Reads (ReadModule (code 0)) (parseModule fuel e) :=
      (reads_parseFields closed zero fuel _).bind fun _ inside => reads_pure ⟨_, _, rfl, inside⟩
    exact first.bind fun node here => ih.bind fun rest others =>
      reads_pure (List.forall_mem_cons.2 ⟨here, others⟩)

/-- A program that is read from a text consists of modules, whose instructions have a property that
their readers ensure. -/
theorem modules_of_parse {source : String} {p : Program} (read : parse source = .ok p) :
    ∀ node ∈ p.body, ReadModule (code 0) node := by
  unfold parse at read
  obtain ⟨exprs, -, read⟩ := bind_eq_ok_iff.1 read
  obtain ⟨⟨p', g⟩, ran, read⟩ := bind_eq_ok_iff.1 read
  obtain rfl := pure_eq_ok_iff.1 read
  have reads : Reads (fun p : Program => ∀ node ∈ p.body, ReadModule (code 0) node)
      (if exprs.all (·.isHeadedBy "module") then
        return ⟨← parseModules (2 * source.length + 2) exprs⟩
      else return ⟨[.module none (← parseFields (2 * source.length + 2) exprs) none]⟩) := by
    split
    · exact (reads_parseModules closed zero _ _).bind fun _ inside => reads_pure inside
    · exact (reads_parseFields closed zero _ _).bind fun _ inside =>
        reads_pure (List.forall_mem_singleton.2 ⟨_, _, rfl, inside⟩)
  exact reads .empty p' g ran

end Fields

/-! ## Programs -/

/-- The program of the expressions of a source. -/
def parseProgram (fuel : Nat) (es : List SExpr) : ParseM Program :=
  if es.all (·.isHeadedBy "module") then return ⟨← parseModules fuel es⟩
  else return ⟨[.module none (← parseFields fuel es) none]⟩

/-- A source is read as a program if its expressions are. -/
theorem parse_eq_ok_iff {source : String} {p : Program} :
    parse source = .ok p ↔ ∃ es g, readAll source = .ok es ∧
      parseProgram (2 * source.length + 2) es .empty = .ok (p, g) := by
  constructor
  · intro parses
    obtain ⟨es, reads, parses⟩ := bind_eq_ok_iff.1 parses
    obtain ⟨⟨p', g⟩, here, same⟩ := bind_eq_ok_iff.1 parses
    cases same
    exact ⟨es, g, reads, here⟩
  · rintro ⟨es, g, reads, here⟩
    exact bind_eq_ok_iff.2 ⟨es, reads, bind_eq_ok_iff.2 ⟨(p, g), here, rfl⟩⟩

end WasmEngine.Wat
