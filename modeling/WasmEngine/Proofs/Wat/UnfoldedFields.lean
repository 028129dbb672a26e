import WasmEngine.Proofs.Wat.GrammarReading
import WasmEngine.Proofs.Wat.PlacedFields
import WasmEngine.Proofs.Wat.Sequences
import WasmEngine.Proofs.Wat.Unfolding

/-!
# Unfolding the instructions of a source

The instructions of functions, global initialisers and offsets unfolded, each field with all else as it
is.  A field and its unfolded form are read as the same nodes, up to the numbers of labels.
-/

namespace WasmEngine.Wat

open Outcome

/-! ## Unfolded fields -/

namespace SExpr

/-- A list of instructions in flat form. -/
def unfoldedInside : SExpr → SExpr
  | .atom token => .atom token
  | .list span items => .list span (unfoldedAll items)

/-- A list with each item replaced. -/
def mapItems (f : SExpr → SExpr) : SExpr → SExpr
  | .atom token => .atom token
  | .list span items => .list span (items.map f)

/-- An item of a segment, with the instructions of an `(offset ...)` list in flat form. -/
def unfoldedOffset (e : SExpr) : SExpr := if e.isHeadedBy "offset" then e.unfoldedInside else e

/-- A field of a module with its instructions in flat form. -/
def unfoldedField (e : SExpr) : SExpr :=
  if e.isHeadedBy "func" || e.isHeadedBy "global" then e.unfoldedInside
  else if e.isHeadedBy "data" || e.isHeadedBy "elem" then e.mapItems unfoldedOffset
  else e

/-- The modules or fields of a source with their instructions in flat form. -/
def unfoldedSource (es : List SExpr) : List SExpr :=
  if es.all (·.isHeadedBy "module") then es.map (mapItems unfoldedField) else es.map unfoldedField

end SExpr

/-! ## Headers in front of instructions -/

/-- No name comes next. -/
def Nameless (tail : List SExpr) : Prop := ∀ e ∈ tail.head?, e.id? = none

/-- Where no immediate stands, no name does. -/
theorem Clear.nameless {tail : List SExpr} (clear : Clear tail) : Nameless tail := by
  cases tail with
  | nil => exact nofun
  | cons e rest => exact fun e' first => Option.some.inj first ▸ clear.notIndex.1

theorem nameless_of_list {e : SExpr} (isList : e.isList = true) (rest : List SExpr) :
    Nameless (e :: rest) := by
  cases e with
  | atom => cases isList
  | list => exact fun e' first => Option.some.inj first ▸ rfl

theorem isList_of_isForm {e : SExpr} (form : e.isForm = true) : e.isList = true := by
  cases e with
  | atom => cases form
  | list => rfl

/-- The items of a list, and those of the list unfolded, at whatever places. -/
def UnfoldedItems (i i' : Items) : Prop := List.Forall₂ SExpr.Same (SExpr.unfoldedAll i.rest) i'.rest

/-- A header is read alike in front of instructions and their flat form. -/
theorem HeaderReader.unfolded {α : Type} {words : List String} {r : Items → Parsed (α × Items)}
    (reader : HeaderReader words r) {i i' after : Items} {a : α} (read : r i = .ok (a, after))
    (flat : UnfoldedItems i i')
    (free : ∀ ys, List.Forall₂ SExpr.Same (SExpr.unfoldedAll after.rest) ys → Free words ys) :
    ∃ after', r i' = .ok (a, after') ∧ UnfoldedItems after after' ∧
      SExpr.size after'.rest ≤ SExpr.size i'.rest ∧ (Nameless after'.rest → Nameless i'.rest) := by
  obtain ⟨-, xs, split, kept, takes⟩ := reader.read read
  obtain ⟨rest', span'⟩ := i'
  unfold UnfoldedItems at flat
  rw [split, SExpr.unfoldedAll_append,
    SExpr.unfoldedAll_of_immediate fun e inside => isImmediate_of_isForm (kept e inside)] at flat
  obtain ⟨xs', ys', rfl, same, later⟩ := exists_append_of_forall₂ flat
  refine ⟨⟨ys', span'⟩, takes xs' same ys' span' (free ys' later), later, ?_, fun nameless => ?_⟩
  · rw [SExpr.size_append]
    exact Nat.le_add_left _ _
  · cases same with
    | nil => exact nameless
    | cons first _ =>
      exact nameless_of_list (first.isList.trans (isList_of_isForm (kept _ List.mem_cons_self))) _

/-- A name is taken alike in front of instructions and their flat form. -/
theorem UnfoldedItems.takeId {i i' : Items} (flat : UnfoldedItems i i')
    (nameless : ∀ i'', UnfoldedItems i.takeId.2 i'' → Nameless i''.rest) :
    i'.takeId.1 = i.takeId.1 ∧ UnfoldedItems i.takeId.2 i'.takeId.2 := by
  obtain ⟨rest', span'⟩ := i'
  obtain none_ | ⟨e, rest, name, here, named, some_⟩ := takeId_cases i
  · rw [none_] at nameless ⊢
    have nameless := nameless ⟨rest', span'⟩ flat
    cases rest' with
    | nil => exact ⟨rfl, flat⟩
    | cons e' rest' =>
      have unnamed : e'.id? = none := nameless e' rfl
      simp only [Items.takeId, unnamed]
      exact ⟨trivial, flat⟩
  · rw [some_]
    unfold UnfoldedItems at flat
    rw [here, SExpr.unfoldedAll_cons, SExpr.unfolded_of_atom (isList_of_id? named)] at flat
    cases flat with
    | cons first others =>
      simp only [Items.takeId, first.id?, named]
      exact ⟨trivial, others⟩

/-! ## Readers of a source and of its unfolded form -/

theorem KeepsNames.symm {g g' : NameGenerator} (kept : KeepsNames g g') : KeepsNames g' g :=
  fun stem other => (kept stem other).symm

section Tracks

variable {α β γ δ : Type} {V : α → β → Prop} {W : γ → δ → Prop}

/-- If the first reader gives something, the second gives something that goes with it, both handing out
the same names but for those of labels. -/
def Tracks (V : α → β → Prop) (m : ParseM α) (m' : ParseM β) : Prop :=
  ∀ g g' a after, KeepsNames g g' → m g = .ok (a, after) →
    ∃ b after', m' g' = .ok (b, after') ∧ V a b ∧ KeepsNames after after'

/-- Readings in sequence track each other when both parts do. -/
theorem Tracks.bind {m : ParseM α} {m' : ParseM β} {f : α → ParseM γ} {f' : β → ParseM δ}
    (first : Tracks V m m') (rest : ∀ a b, V a b → Tracks W (f a) (f' b)) :
    Tracks W (m >>= f) (m' >>= f') := by
  intro g g' c after kept ends
  obtain ⟨⟨a, mid⟩, here, there⟩ := bind_eq_ok_iff.1 ends
  obtain ⟨b, mid', here', related, kept'⟩ := first g g' a mid kept here
  obtain ⟨d, after', there', value, kept''⟩ := rest a b related mid mid' c after kept' there
  exact ⟨d, after', bind_eq_ok_iff.2 ⟨(b, mid'), here', there'⟩, value, kept''⟩

theorem tracks_pure {a : α} {b : β} (value : V a b) : Tracks V (pure a) (pure b) := by
  intro g g' c after kept ends
  cases ends
  exact ⟨b, g', rfl, value, kept⟩

theorem tracks_lift {r : Parsed α} {r' : Parsed β} (follows : Follows V r r') :
    Tracks V (liftM r) (liftM r') := by
  intro g g' a after kept ends
  obtain ⟨c, here, there⟩ := bind_eq_ok_iff.1 ends
  cases there
  obtain ⟨b, here', value⟩ := follows a here
  exact ⟨b, g', bind_eq_ok_iff.2 ⟨b, here', rfl⟩, value, kept⟩

theorem tracks_throw {e : ParseError} {m' : ParseM β} : Tracks V (throw e) m' := by
  intro g g' a after _ ends
  cases ends

/-- Readings that track each other give whatever is weaker. -/
theorem Tracks.mono {V' : α → β → Prop} {m : ParseM α} {m' : ParseM β} (first : Tracks V m m')
    (weaker : ∀ a b, V a b → V' a b) : Tracks V' m m' := by
  intro g g' a after kept ends
  obtain ⟨b, after', ends', value, kept'⟩ := first g g' a after kept ends
  exact ⟨b, after', ends', weaker a b value, kept'⟩

/-- Readings that agree track each other. -/
theorem AgreesM.tracks {m : ParseM α} {m' : ParseM β} (agrees : AgreesM KeepsNames V m m') : Tracks V m m' := by
  intro g g' a after kept ends
  obtain ⟨⟨b, after'⟩, ends', value, kept'⟩ := (agrees g g' kept).follows (a, after) ends
  exact ⟨b, after', ends', value, kept'⟩

/-- Names that are generated for anything but labels are the same. -/
theorem namesAlike_keepsNames : NamesAlike KeepsNames := by
  intro stem notBlock g g' kept
  refine .ok ⟨?_, fun other notBlock' => ?_⟩
  · show Identifier.synthesized (g.unique stem).1 = .synthesized (g'.unique stem).1
    unfold NameGenerator.unique
    rw [kept stem notBlock]
  · show (g'.unique stem).2.count other = (g.unique stem).2.count other
    by_cases same : other = stem
    · subst same
      rw [NameGenerator.count_unique_self, NameGenerator.count_unique_self, kept other notBlock]
    · rw [NameGenerator.count_unique_of_ne _ same, NameGenerator.count_unique_of_ne _ same,
        kept other notBlock']

/-- The name of a definition, if the same name or none is given. -/
theorem tracks_nameOrFresh {stem : String} (notBlock : isBlockWord stem = false) {i i' : Items}
    (named : i'.takeId.1 = i.takeId.1) :
    Tracks (fun r r' => r.1 = r'.1 ∧ r.2 = i.takeId.2 ∧ r'.2 = i'.takeId.2) (nameOrFresh i stem)
      (nameOrFresh i' stem) := by
  unfold nameOrFresh
  generalize i.takeId = q at named ⊢
  generalize i'.takeId = q' at named ⊢
  obtain ⟨name, items⟩ := q
  obtain ⟨name', items'⟩ := q'
  obtain rfl : name' = name := named
  cases name' with
  | some name => exact tracks_pure ⟨rfl, rfl, rfl⟩
  | none => exact (namesAlike_keepsNames _ notBlock).tracks.bind fun _ _ names => tracks_pure ⟨names, rfl, rfl⟩

end Tracks

/-! ## Instructions -/

section Bodies

variable {fuel fuel' : Nat}

/-- Instructions and their flat form are read as the same nodes, up to the numbers of labels. -/
theorem tracks_parseBody {i i' : Items} (flat : UnfoldedItems i i') (enough : SExpr.size i'.rest < fuel') :
    Tracks RenumberedIn (parseBody fuel i) (parseBody fuel' i') := by
  intro g g' nodes after kept ends
  obtain ⟨means, keeps⟩ := sequence_of_parseBody fuel i g nodes after ends
  have reads : Gets (RenumberedIn nodes) (parseBody fuel' i') := by
    have reads : Gets (fun r => RenumberedIn nodes r.1 ∧ r.2 = (none, ⟨[], i'.span⟩))
        (parseSequence fuel' 0 [] ⟨i'.rest ++ [], i'.span⟩) :=
      (means.unfolded.relocate flat).read enough (List.forall_mem_nil _) .finish
    rw [List.append_nil] at reads
    exact reads.bind fun r ⟨renumbered, _⟩ => gets_pure renumbered
  obtain ⟨nodes', after', ends', renumbered⟩ := reads g'
  have keeps' := (sequence_of_parseBody fuel' i' g' nodes' after' ends').2
  exact ⟨nodes', after', ends', renumbered, (keeps.symm.trans kept).trans keeps'⟩

/-- A folded instruction is read as the same nodes at whatever places, up to the numbers of labels. -/
theorem tracks_parseFolded {e e' : SExpr} (same : e.Same e') (enough : SExpr.size [e'] ≤ fuel') :
    Tracks RenumberedIn (parseFolded fuel 0 e) (parseFolded fuel' 0 e') := by
  intro g g' nodes after kept ends
  obtain ⟨means, keeps⟩ := (sound fuel).folded 0 e g nodes after ends
  obtain ⟨nodes', after', ends', renumbered⟩ := (means.relocate same).read enough g'
  have keeps' := ((sound fuel').folded 0 e' g' nodes' after' ends').2
  exact ⟨nodes', after', ends', renumbered, (keeps.symm.trans kept).trans keeps'⟩

end Bodies

/-! ## Functions -/

/-- A definition is read as a name, a header and the rest of its items. -/
def readDefinition {α : Type} (stem : String) (header : Items → Parsed (α × Items))
    (rest : Identifier → α → Items → ParseM (List Node)) (e : SExpr) : ParseM (List Node) := do
  let (name, i) ← nameOrFresh (.ofExpr e) stem
  let (h, i) ← (liftM (header i) : ParseM _)
  rest name h i

/-- What stands in front of the instructions of a function. -/
structure FuncHeader where
  exports : List String
  origin : Option (String × String)
  signature : SignatureRef
  locals : List (List Param)

/-- Reads the locals of a function, which an import has none of. -/
def funcLocals (exports : List String) (origin : Option (String × String)) (signature : SignatureRef)
    (i : Items) : Parsed (FuncHeader × Items) :=
  match origin with
  | some _ => pure (⟨exports, origin, signature, []⟩, i)
  | none => do
    let (locals, i) ← readLists "local" parseParams i
    pure (⟨exports, origin, signature, locals⟩, i)

/-- Reads what stands in front of the instructions of a function. -/
def funcHeader (i : Items) : Parsed (FuncHeader × Items) := do
  let (exports, i) ← readLists "export" parseInlineExport i
  let (origin, i) ← readList? "import" parseInlineImport i
  let (signature, i) ← parseTypeUse i
  funcLocals exports origin signature i

/-- The nodes of a function after its header. -/
def funcNodes (fuel : Nat) (name : Identifier) (h : FuncHeader) (i : Items) : ParseM (List Node) := do
  let exports := h.exports.map fun n => .moduleExport ⟨n, .func, .identifier name⟩
  match h.origin with
  | some (module, field) =>
    i.expectEnd "func import"
    return importNode module field (.func ⟨name, h.signature⟩) :: exports
  | none =>
    let body ← parseBody fuel i
    return .func name h.signature h.locals.flatten body none :: exports

/-- A function is read as a header and what follows it. -/
theorem parseFunc_eq (fuel : Nat) (e : SExpr) :
    parseFunc fuel e = readDefinition "func" funcHeader (funcNodes fuel) e := by
  unfold parseFunc readDefinition funcHeader funcLocals funcNodes takeExports readLists readList?
  refine bind_congr fun q => ?_
  obtain ⟨name, i⟩ := q
  simp only [lift_bind, lift_pure, bind_assoc, pure_bind]
  refine bind_congr fun exports => ?_
  generalize Items.takeList _ "import" = q
  obtain ⟨_ | form, items⟩ := q
  · show _ = (pure (none, items) >>= _)
    simp only [lift_bind, lift_pure, lift_mapM, bind_assoc, pure_bind]
  · simp only [lift_bind, lift_pure, bind_assoc, pure_bind]

/-- The header of a function is read as one. -/
theorem headerReader_funcHeader : HeaderReader forms funcHeader := by
  have exports : HeaderReader forms (readLists "export" parseInlineExport) :=
    headerReader_readLists (by decide) (by decide) fun _ _ => agrees_parseInlineExport
  have origin : HeaderReader forms (readList? "import" parseInlineImport) :=
    headerReader_readList? (by decide) (by decide) fun _ _ => agrees_parseInlineImport
  have locals : HeaderReader forms (readLists "local" parseParams) :=
    headerReader_readLists (by decide) (by decide) fun _ _ => agrees_parseParams
  have ends (es : List String) (o : Option (String × String)) (s : SignatureRef) :
      HeaderReader forms (funcLocals es o s) := by
    cases o with
    | some form => exact headerReader_pure forms _
    | none => exact locals.bind fun ls => headerReader_pure forms (FuncHeader.mk es none s ls)
  exact exports.bind fun es => origin.bind fun o => headerReader_parseTypeUse.bind (ends es o)

/-- Nothing follows instructions that nothing follows in their flat form. -/
theorem UnfoldedItems.expectEnd {i i' : Items} (flat : UnfoldedItems i i') (context : String) :
    Follows Eq (i.expectEnd context) (i'.expectEnd context) := by
  obtain ⟨rest, span⟩ := i
  obtain ⟨rest', span'⟩ := i'
  cases rest with
  | nil =>
    cases flat
    exact follows_ok rfl
  | cons => exact follows_unexpected

/-- Nothing is left where an end is expected. -/
theorem nil_of_expectEnd {i : Items} {context : String} {u : Unit} (ends : i.expectEnd context = .ok u) :
    i.rest = [] := by
  obtain ⟨rest, span⟩ := i
  cases rest with
  | nil => rfl
  | cons => cases ends

theorem clear_of_unfolded {depth : Nat} {xs ys : List SExpr} {nodes : List Node}
    (means : Sequence depth xs nodes) (flat : List.Forall₂ SExpr.Same (SExpr.unfoldedAll xs) ys) :
    Clear ys := (means.unfolded.relocate flat).clear_all

/-- The body of a function is a sequence. -/
theorem sequence_of_funcNodes (fuel : Nat) (name : Identifier) (h : FuncHeader) (i : Items) :
    Yields (fun _ => ∃ nodes, Sequence 0 i.rest nodes) (funcNodes fuel name h i) := by
  unfold funcNodes
  split
  · refine (yields_lift (p := fun _ => i.rest = []) fun _ ends => nil_of_expectEnd ends).bind fun _ nothing => ?_
    exact yields_pure ⟨[], nothing ▸ .nil 0⟩
  · exact (sequence_of_parseBody fuel i).bind fun body means => yields_pure ⟨body, means⟩

theorem tracks_funcNodes {fuel fuel' : Nat} (name : Identifier) (h : FuncHeader) {i i' : Items}
    (flat : UnfoldedItems i i') (enough : SExpr.size i'.rest < fuel') :
    Tracks RenumberedIn (funcNodes fuel name h i) (funcNodes fuel' name h i') := by
  unfold funcNodes
  split
  · exact (tracks_lift (flat.expectEnd _)).bind fun _ _ _ => tracks_pure (RenumberedIn.same _)
  · exact (tracks_parseBody flat enough).bind fun _ _ renumbered =>
      tracks_pure (.cons (.func _ _ _ renumbered _) (RenumberedIn.same _))

/-- The items after the name of a definition. -/
theorem takeId_of_nameOrFresh {stem : String} {i : Items} {g g' : NameGenerator} {r : Identifier × Items}
    (named : nameOrFresh i stem g = .ok (r, g')) : r.2 = i.takeId.2 := by
  unfold nameOrFresh at named
  generalize i.takeId = q at named ⊢
  obtain ⟨_ | name, items⟩ := q
  · cases named
    rfl
  · cases named
    rfl

/-- A list headed by a word, and what goes with its unfolded form. -/
theorem unfoldedItems_ofExpr {e e' : SExpr} {word : String} (headed : e.isHeadedBy word = true)
    (same : e.unfoldedInside.Same e') : UnfoldedItems (.ofExpr e) (.ofExpr e') := by
  obtain ⟨span, first, items, rfl, keyword, here⟩ := exists_of_head? (beq_iff_eq.1 headed)
  rw [SExpr.unfoldedInside, SExpr.unfoldedAll_cons, SExpr.unfolded_of_keyword keyword] at same
  cases same with
  | list _ span' inside =>
    cases inside with
    | cons head inside =>
      rw [here, ofExpr_of_keyword (head.keyword?.trans keyword)]
      exact inside

/-- A definition and its unfolded form are read as the same nodes if what comes after the header is, and if
no name and no list of the header comes there. -/
theorem tracks_readDefinition {α : Type} {stem word : String} {words : List String}
    {header : Items → Parsed (α × Items)} {rest rest' : Identifier → α → Items → ParseM (List Node)}
    {fuel : Nat} (notBlock : isBlockWord stem = false) (reader : HeaderReader words header)
    (ready : ∀ name h i, Yields (fun _ => ∀ ys, List.Forall₂ SExpr.Same (SExpr.unfoldedAll i.rest) ys →
      Free words ys ∧ Nameless ys) (rest name h i))
    (tracks : ∀ name h i i', UnfoldedItems i i' → SExpr.size i'.rest < fuel →
      Tracks RenumberedIn (rest name h i) (rest' name h i'))
    {e e' : SExpr} (headed : e.isHeadedBy word = true) (same : e.unfoldedInside.Same e')
    (enough : SExpr.size [e'] ≤ fuel) :
    Tracks RenumberedIn (readDefinition stem header rest e) (readDefinition stem header rest' e') := by
  intro g g' nodes after kept ends
  have flat := unfoldedItems_ofExpr headed same
  -- the items after the header are found first, since they say how far the header goes
  obtain ⟨⟨⟨name, i⟩, g₁⟩, named, ends'⟩ := bind_eq_ok_iff.1 ends
  obtain ⟨⟨⟨h, j⟩, g₂⟩, read, ends''⟩ := bind_eq_ok_iff.1 ends'
  replace read := eq_ok_of_lift read
  obtain rfl : i = (Items.ofExpr e).takeId.2 := takeId_of_nameOrFresh named
  have ready := (ready name h j _ nodes after ends'').1
  have nameless : ∀ i'', UnfoldedItems (Items.ofExpr e).takeId.2 i'' → Nameless i''.rest := by
    intro i'' flat
    obtain ⟨after', -, later, -, nameless⟩ := reader.unfolded read flat fun ys same => (ready ys same).1
    exact nameless (ready _ later).2
  obtain ⟨names, left⟩ := flat.takeId nameless
  obtain ⟨after', read', later, smaller, -⟩ := reader.unfolded read left fun ys same => (ready ys same).1
  have below : SExpr.size after'.rest < fuel := by
    have least := size_takeId_le (.ofExpr e')
    have less := size_ofExpr_lt e'
    omega
  refine Tracks.bind (tracks_nameOrFresh notBlock names) ?_ g g' nodes after kept ends
  rintro ⟨name, i⟩ ⟨name', i'⟩ ⟨rfl, rfl, rfl⟩
  dsimp only
  rw [read, read']
  exact tracks name h j after' later below

/-- A function and its unfolded form are read as the same nodes, up to the numbers of labels. -/
theorem tracks_parseFunc {fuel fuel' : Nat} {e e' : SExpr} (headed : e.isHeadedBy "func" = true)
    (same : e.unfoldedInside.Same e') (enough : SExpr.size [e'] ≤ fuel') :
    Tracks RenumberedIn (parseFunc fuel e) (parseFunc fuel' e') := by
  rw [parseFunc_eq, parseFunc_eq]
  refine tracks_readDefinition rfl headerReader_funcHeader (fun name h i => ?_)
    (fun name h i i' flat enough => tracks_funcNodes name h flat enough) headed same enough
  refine (sequence_of_funcNodes fuel name h i).mono fun _ ⟨nodes, means⟩ ys later => ?_
  have clear := clear_of_unfolded means later
  exact ⟨clear.free, clear.nameless⟩

/-! ## Globals -/

/-- Reads what stands in front of the type of a global: the names of exports, and the import. -/
def globalHeader (i : Items) : Parsed ((List String × Option (String × String)) × Items) := do
  let (exports, i) ← readLists "export" parseInlineExport i
  let (origin, i) ← readList? "import" parseInlineImport i
  pure ((exports, origin), i)

/-- The nodes of a global after its header. -/
def globalNodes (fuel : Nat) (name : Identifier) (h : List String × Option (String × String)) (i : Items) :
    ParseM (List Node) := do
  let exports := h.1.map fun n => .moduleExport ⟨n, .global, .identifier name⟩
  let (type, i) ← parseGlobalType i
  match h.2 with
  | some (module, field) =>
    i.expectEnd "global import"
    return .moduleImport ⟨module, field, .global type, some name⟩ :: exports
  | none =>
    let init ← parseBody fuel i
    return .global type init (some name) :: exports

/-- A global is read as a header and what follows it. -/
theorem parseGlobal_eq (fuel : Nat) (e : SExpr) :
    parseGlobal fuel e = readDefinition "global" globalHeader (globalNodes fuel) e := by
  unfold parseGlobal readDefinition globalHeader globalNodes takeExports readLists readList?
  refine bind_congr fun q => ?_
  obtain ⟨name, i⟩ := q
  simp only [lift_bind, lift_pure, bind_assoc, pure_bind]
  refine bind_congr fun exports => ?_
  generalize Items.takeList _ "import" = q
  obtain ⟨_ | form, items⟩ := q
  · show _ = (pure (none, items) >>= _)
    simp only [pure_bind]
  · simp only [lift_bind, lift_pure, bind_assoc, pure_bind]

/-- The header of a global is read as one. -/
theorem headerReader_globalHeader : HeaderReader ["export", "import"] globalHeader := by
  have exports : HeaderReader ["export", "import"] (readLists "export" parseInlineExport) :=
    headerReader_readLists (by decide) (by decide) fun _ _ => agrees_parseInlineExport
  have origin : HeaderReader ["export", "import"] (readList? "import" parseInlineImport) :=
    headerReader_readList? (by decide) (by decide) fun _ _ => agrees_parseInlineImport
  exact exports.bind fun es => origin.bind fun o => headerReader_pure _ (es, o)

/-- The type of a global is the item that comes next, which is no name and no instruction. -/
structure IsGlobalType (e : SExpr) : Prop where
  immediate : e.isImmediate = true
  unnamed : e.id? = none
  headed : e.isHeadedBy "export" = false ∧ e.isHeadedBy "import" = false

/-- The type of a global that is read stands in front. -/
theorem isGlobalType_of_read {i after : Items} {type : GlobalType}
    (read : parseGlobalType i = .ok (type, after)) : ∃ e, i.rest = e :: after.rest ∧ IsGlobalType e := by
  obtain ⟨rest, span⟩ := i
  cases rest with
  | nil => cases read
  | cons e rest =>
    unfold parseGlobalType Items.next at read
    dsimp only at read
    split at read
    · next isMut =>
      have head : e.head? = some "mut" := beq_iff_eq.1 isMut
      have left : after.rest = rest := by
        split at read
        · cases read
        · obtain ⟨_, _, read⟩ := bind_eq_ok_iff.1 read
          obtain ⟨_, _, read⟩ := bind_eq_ok_iff.1 read
          cases read
          rfl
      refine ⟨e, by rw [left], isImmediate_of_head isMut (by decide), ?_, ?_⟩
      · cases e with
        | atom => cases isMut
        | list => rfl
      · simp [SExpr.isHeadedBy, head]
    · split at read
      · cases read
      · next atom =>
        obtain ⟨t, valtype, read⟩ := bind_eq_ok_iff.1 read
        cases read
        cases e with
        | list => exact absurd rfl atom
        | atom token =>
          refine ⟨_, rfl, isImmediate_of_atom rfl, ?_, rfl, rfl⟩
          obtain ⟨kind, place⟩ := token
          cases kind <;> first | rfl | cases valtype

/-- The type of a global is read from its own item. -/
theorem parseGlobalType_cons (e : SExpr) (rest : List SExpr) (span : Span) :
    parseGlobalType ⟨e :: rest, span⟩ = (parseGlobalType ⟨[e], span⟩).map (withTail rest) := by
  simp only [parseGlobalType, Items.next]
  cases e.isHeadedBy "mut" with
  | true =>
    simp only [if_true]
    cases (Items.ofExpr e).rest with
    | nil => rfl
    | cons t inner =>
      dsimp only
      cases parseValtype t with
      | error => rfl
      | ok t =>
        cases inner <;> rfl
  | false =>
    simp only [Bool.false_eq_true, if_false]
    cases e.isList with
    | true => rfl
    | false => cases parseValtype e <;> rfl

/-- The type of a global is read alike in front of instructions and their flat form. -/
theorem UnfoldedItems.parseGlobalType {i i' : Items} (flat : UnfoldedItems i i') :
    Follows (fun r r' => r.1 = r'.1 ∧ UnfoldedItems r.2 r'.2 ∧ SExpr.size r'.2.rest ≤ SExpr.size i'.rest)
      (parseGlobalType i) (parseGlobalType i') := by
  rintro ⟨type, after⟩ read
  obtain ⟨e, here, isType⟩ := isGlobalType_of_read read
  obtain ⟨rest, span⟩ := i
  obtain ⟨rest', span'⟩ := i'
  obtain rfl : rest = e :: after.rest := here
  unfold UnfoldedItems at flat
  rw [SExpr.unfoldedAll_cons, SExpr.unfolded_of_immediate isType.immediate] at flat
  cases flat with
  | @cons _ e' _ ys first others =>
    rw [parseGlobalType_cons] at read ⊢
    have alone : SameItems ⟨[e], span⟩ ⟨[e'], span'⟩ := .cons first .nil
    cases reads : Wat.parseGlobalType ⟨[e], span⟩ with
    | error e =>
      rw [reads] at read
      cases read
    | ok p =>
      rw [reads] at read
      have whole : withTail after.rest p = (type, after) := Except.ok.inj read
      have nothing : p.2.rest = [] := List.append_left_eq_self.1 (congrArg (fun q => q.2.rest) whole)
      obtain ⟨q, reads', types, left⟩ := (agrees_parseGlobalType alone).follows p reads
      unfold SameItems at left
      rw [nothing, List.forall₂_nil_left_iff] at left
      refine ⟨withTail ys q, by rw [reads']; rfl, ?_, ?_, ?_⟩
      · exact (congrArg Prod.fst whole).symm.trans types
      · show List.Forall₂ _ _ (q.2.rest ++ ys)
        rwa [left]
      · show SExpr.size (q.2.rest ++ ys) ≤ _
        rw [left, List.nil_append, SExpr.size_cons]
        exact Nat.le_add_left _ _

/-- The initialiser of a global begins with no header. -/
theorem ready_globalNodes (fuel : Nat) (name : Identifier) (h : List String × Option (String × String))
    (i : Items) : Yields (fun _ => ∀ ys, List.Forall₂ SExpr.Same (SExpr.unfoldedAll i.rest) ys →
      Free ["export", "import"] ys ∧ Nameless ys) (globalNodes fuel name h i) := by
  have ready : ∀ r, parseGlobalType i = .ok r → ∀ ys,
      List.Forall₂ SExpr.Same (SExpr.unfoldedAll i.rest) ys → Free ["export", "import"] ys ∧ Nameless ys := by
    intro ⟨type, after⟩ read ys flat
    obtain ⟨e, here, isType⟩ := isGlobalType_of_read read
    rw [here, SExpr.unfoldedAll_cons, SExpr.unfolded_of_immediate isType.immediate] at flat
    cases flat with
    | cons first _ =>
      refine ⟨fun e' same => Option.some.inj same ▸ ?_, fun e' same => Option.some.inj same ▸ ?_⟩
      · rw [List.forall_mem_cons, List.forall_mem_singleton, first.isHeadedBy, first.isHeadedBy]
        exact isType.headed
      · exact first.id?.trans isType.unnamed
  refine (yields_lift ready).bind fun r now => ?_
  obtain ⟨exports, origin⟩ := h
  cases origin with
  | some origin =>
    exact (yields_lift (p := fun _ => True) fun _ _ => trivial).bind fun _ _ => yields_pure now
  | none => exact (sequence_of_parseBody fuel r.2).bind fun _ _ => yields_pure now

theorem tracks_globalNodes {fuel fuel' : Nat} (name : Identifier) (h : List String × Option (String × String))
    {i i' : Items} (flat : UnfoldedItems i i') (enough : SExpr.size i'.rest < fuel') :
    Tracks RenumberedIn (globalNodes fuel name h i) (globalNodes fuel' name h i') := by
  refine (tracks_lift flat.parseGlobalType).bind fun r r' ⟨types, left, smaller⟩ => ?_
  obtain ⟨type, i⟩ := r
  obtain ⟨type', i'⟩ := r'
  obtain rfl : type = type' := types
  obtain ⟨exports, origin⟩ := h
  cases origin with
  | some origin =>
    exact (tracks_lift (left.expectEnd _)).bind fun _ _ _ => tracks_pure (RenumberedIn.same _)
  | none =>
    have below : SExpr.size i'.rest < fuel' := Nat.lt_of_le_of_lt smaller enough
    exact (tracks_parseBody left below).bind fun _ _ renumbered =>
      tracks_pure (.cons (.global _ renumbered _) (RenumberedIn.same _))

/-- A global and its unfolded form are read as the same nodes, up to the numbers of labels. -/
theorem tracks_parseGlobal {fuel fuel' : Nat} {e e' : SExpr} (headed : e.isHeadedBy "global" = true)
    (same : e.unfoldedInside.Same e') (enough : SExpr.size [e'] ≤ fuel') :
    Tracks RenumberedIn (parseGlobal fuel e) (parseGlobal fuel' e') := by
  rw [parseGlobal_eq, parseGlobal_eq]
  exact tracks_readDefinition rfl headerReader_globalHeader (ready_globalNodes fuel)
    (fun name h i i' flat enough => tracks_globalNodes name h flat enough) headed same enough

/-! ## Segments -/

/-- The items of a segment, and those of the segment unfolded, at whatever places. -/
def UnfoldedParts (i i' : Items) : Prop :=
  List.Forall₂ (fun e e' => e.unfoldedOffset.Same e') i.rest i'.rest

theorem same_of_atom {e e' : SExpr} (atom : e.isList = false) (same : e.unfoldedOffset.Same e') :
    e.Same e' := by
  cases e with
  | list => cases atom
  | atom => exact same

theorem head?_unfoldedInside {e : SExpr} {word : String} (headed : e.isHeadedBy word = true) :
    e.unfoldedInside.head? = e.head? := by
  obtain ⟨span, first, items, rfl, keyword, -⟩ := exists_of_head? (beq_iff_eq.1 headed)
  rw [SExpr.unfoldedInside, SExpr.unfoldedAll_cons, SExpr.unfolded_of_keyword keyword]
  rfl

/-- Unfolding an offset leaves the first item. -/
theorem head?_unfoldedOffset (e : SExpr) : e.unfoldedOffset.head? = e.head? := by
  unfold SExpr.unfoldedOffset
  split
  · next headed => exact head?_unfoldedInside headed
  · rfl

theorem isList_unfoldedOffset (e : SExpr) : e.unfoldedOffset.isList = e.isList := by
  unfold SExpr.unfoldedOffset
  split
  · cases e <;> rfl
  · rfl

section Parts

variable {e e' : SExpr} (same : e.unfoldedOffset.Same e')
include same

theorem isList_of_unfoldedOffset : e'.isList = e.isList :=
  same.isList.trans (isList_unfoldedOffset e)

theorem isHeadedBy_of_unfoldedOffset (word : String) : e'.isHeadedBy word = e.isHeadedBy word := by
  unfold SExpr.isHeadedBy
  rw [same.head?, head?_unfoldedOffset]

/-- An item that is no list is there for both or for none. -/
theorem atomic_of_unfoldedOffset : e.Same e' ∨ e.isList = true ∧ e'.isList = true := by
  cases isList : e.isList with
  | false => exact .inl (same_of_atom isList same)
  | true => exact .inr ⟨rfl, (isList_of_unfoldedOffset same).trans isList⟩

theorem follows_parseIndex_of_unfoldedOffset : Follows Eq (parseIndex e) (parseIndex e') := by
  obtain same | ⟨isList, -⟩ := atomic_of_unfoldedOffset same
  · exact (agrees_parseIndex same).follows
  · cases e with
    | atom => cases isList
    | list => exact follows_unexpected

/-- Unfolding an offset leaves indices and strings. -/
theorem index_of_unfoldedOffset : e'.id? = e.id? ∧ e'.number? = e.number? ∧ e'.string? = e.string? := by
  obtain same | ⟨isList, isList'⟩ := atomic_of_unfoldedOffset same
  · exact ⟨same.id?, same.number?, same.string?⟩
  · cases e with
    | atom => cases isList
    | list =>
      cases e' with
      | atom => cases isList'
      | list => exact ⟨rfl, rfl, rfl⟩

end Parts

/-- An optional index is read alike before an unfolded offset. -/
theorem UnfoldedParts.parseOptionalIndex {i i' : Items} (flat : UnfoldedParts i i') :
    Follows (fun r r' => r.1 = r'.1 ∧ UnfoldedParts r.2 r'.2 ∧ SExpr.size r'.2.rest ≤ SExpr.size i'.rest)
      (parseOptionalIndex i) (parseOptionalIndex i') := by
  obtain ⟨rest, span⟩ := i
  obtain ⟨rest', span'⟩ := i'
  cases flat with
  | nil => exact follows_ok ⟨rfl, .nil, Nat.le_refl _⟩
  | @cons e e' es es' first others =>
    obtain ⟨ids, numbers, -⟩ := index_of_unfoldedOffset first
    unfold Wat.parseOptionalIndex
    dsimp only
    rw [ids, numbers]
    split
    · refine (follows_parseIndex_of_unfoldedOffset first).bind fun _ _ index => follows_pure ⟨index, others, ?_⟩
      rw [SExpr.size_cons e' es']
      exact Nat.le_add_left _ _
    · exact follows_ok ⟨rfl, .cons first others, Nat.le_refl _⟩

theorem tracks_parseOffset {fuel fuel' : Nat} {i i' : Items} (flat : UnfoldedParts i i')
    (enough : SExpr.size i'.rest < fuel') (context : String) :
    Tracks (fun r r' => RenumberedIn r.1 r'.1 ∧ UnfoldedParts r.2 r'.2) (parseOffset fuel i context)
      (parseOffset fuel' i' context) := by
  obtain ⟨rest, span⟩ := i
  obtain ⟨rest', span'⟩ := i'
  unfold parseOffset
  cases flat with
  | nil => exact tracks_throw
  | @cons e e' es es' first others =>
    dsimp only at enough
    rw [SExpr.size_cons] at enough
    unfold Items.takeList
    dsimp only
    rw [isHeadedBy_of_unfoldedOffset first]
    cases headed : e.isHeadedBy "offset" with
    | true =>
      have inside : e.unfoldedInside.Same e' := by
        unfold SExpr.unfoldedOffset at first
        rwa [if_pos headed] at first
      have less := size_ofExpr_lt e'
      exact (tracks_parseBody (unfoldedItems_ofExpr headed inside) (by omega)).bind
        fun _ _ renumbered => tracks_pure ⟨renumbered, others⟩
    | false =>
      simp only [Bool.false_eq_true, if_false, Items.next]
      rw [isList_of_unfoldedOffset first]
      split
      · have same : e.Same e' := by
          unfold SExpr.unfoldedOffset at first
          rwa [headed, if_neg Bool.false_ne_true] at first
        exact (tracks_parseFolded same (by omega)).bind fun _ _ renumbered =>
          tracks_pure ⟨renumbered, others⟩
      · exact tracks_lift follows_unexpected

theorem follows_parseDataStrings {es es' : List SExpr}
    (flat : List.Forall₂ (fun e e' => e.unfoldedOffset.Same e') es es') :
    Follows Eq (parseDataStrings es) (parseDataStrings es') := by
  refine (follows_mapM flat fun e e' same => ?_).bind fun _ _ strings => follows_pure (strings ▸ rfl)
  rw [(index_of_unfoldedOffset same).2.2]
  split
  · exact follows_ok rfl
  · exact follows_unexpected

/-- The parts of a segment are unfolded one by one. -/
theorem unfoldedParts_ofExpr {e e' : SExpr} {word : String} (headed : e.isHeadedBy word = true)
    (same : (e.mapItems SExpr.unfoldedOffset).Same e') : UnfoldedParts (.ofExpr e) (.ofExpr e') := by
  obtain ⟨span, first, items, rfl, keyword, here⟩ := exists_of_head? (beq_iff_eq.1 headed)
  cases same with
  | list _ span' inside =>
    cases inside with
    | cons head inside =>
      have word' : first.Same _ := same_of_atom (isList_of_keyword? keyword) head
      rw [here, ofExpr_of_keyword (word'.keyword?.trans keyword)]
      exact List.forall₂_map_left_iff.1 inside

section Segments

variable {fuel fuel' : Nat} {e e' : SExpr} {word : String} (headed : e.isHeadedBy word = true)
  (same : (e.mapItems SExpr.unfoldedOffset).Same e') (enough : SExpr.size [e'] ≤ fuel')
include headed same enough

/-- A data segment and its unfolded form are read as the same nodes, up to the numbers of labels. -/
theorem tracks_parseData : Tracks RenumberedIn (parseData fuel e) (parseData fuel' e') := by
  have less := size_ofExpr_lt e'
  refine (tracks_lift (unfoldedParts_ofExpr headed same).parseOptionalIndex).bind
    fun r r' ⟨index, left, smaller⟩ => ?_
  refine (tracks_parseOffset left (by omega) "data").bind fun q q' ⟨offset, left⟩ => ?_
  refine (tracks_lift (follows_parseDataStrings left)).bind fun bytes bytes' same => ?_
  rw [index, same]
  exact tracks_pure (.cons (.data _ offset _) .nil)

/-- An element segment and its unfolded form are read as the same nodes, up to the numbers of labels. -/
theorem tracks_parseElem : Tracks RenumberedIn (parseElem fuel e) (parseElem fuel' e') := by
  have less := size_ofExpr_lt e'
  refine (tracks_lift (unfoldedParts_ofExpr headed same).parseOptionalIndex).bind
    fun r r' ⟨index, left, smaller⟩ => ?_
  refine (tracks_parseOffset left (by omega) "elem").bind fun q q' ⟨offset, left⟩ => ?_
  have funcs : Follows Eq (q.2.rest.mapM parseIndex) (q'.2.rest.mapM parseIndex) :=
    follows_mapM left fun _ _ same => follows_parseIndex_of_unfoldedOffset same
  simp only [lift_mapM]
  refine (tracks_lift funcs).bind fun is is' same => ?_
  rw [index, same]
  exact tracks_pure (.cons (.elem _ offset _) .nil)

end Segments

end WasmEngine.Wat
