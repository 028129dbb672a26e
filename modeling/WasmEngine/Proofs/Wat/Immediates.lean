import WasmEngine.Proofs.Typing.InstructionNames
import WasmEngine.Proofs.Wat.Headers

/-!
# Immediates

An instruction takes what belongs to it from the items after it, and no more than that: it would take the
same in front of anything else that it could not take (`withImmediates_of_parseOp`).
-/

namespace WasmEngine.Wat

open Outcome

/-! ## Immediates -/

/-- Whether an expression belongs to the instruction before it: a word or number, or a list that is no
instruction. -/
def SExpr.isImmediate (e : SExpr) : Bool := !e.isList || e.isForm

/-- Nothing comes next that an instruction could take as its own: no name, number or string, no list that
is no instruction, and no part of a memory argument. -/
def Clear : List SExpr → Prop
  | [] => True
  | e :: _ => (e.isList = true ∧ e.isForm = false) ∨
    ∃ word, e.keyword? = some word ∧ Text.after? "offset=" word = none ∧
      Text.after? "align=" word = none

/-- Expressions make up what a reader gives, whatever it could not take follows them. -/
def Takes {α : Type} (r : Items → Parsed (α × Items)) (a : α) (xs : List SExpr) : Prop :=
  ∀ xs', List.Forall₂ SExpr.Same xs xs' → ∀ tail span, Clear tail →
    r ⟨xs' ++ tail, span⟩ = .ok (a, ⟨tail, span⟩)

theorem isImmediate_of_atom {e : SExpr} (atom : e.isList = false) : e.isImmediate = true := by
  simp [SExpr.isImmediate, atom]

theorem isList_of_id? {e : SExpr} {name : String} (named : e.id? = some name) : e.isList = false := by
  cases e with
  | atom => rfl
  | list => cases named

theorem isList_of_number? {e : SExpr} {raw : String} (number : e.number? = some raw) :
    e.isList = false := by
  cases e with
  | atom => rfl
  | list => cases number

theorem isList_of_keyword? {e : SExpr} {word : String} (keyword : e.keyword? = some word) :
    e.isList = false := by
  cases e with
  | atom => rfl
  | list => cases keyword

theorem isList_of_parseIndex {e : SExpr} {index : Index} (read : parseIndex e = .ok index) :
    e.isList = false := by
  cases e with
  | atom => rfl
  | list => cases read

theorem isImmediate_of_isForm {e : SExpr} (form : e.isForm = true) : e.isImmediate = true := by
  simp [SExpr.isImmediate, form]

/-- A list with the head of a form is an immediate. -/
theorem isImmediate_of_head {e : SExpr} {word : String} (headed : e.isHeadedBy word = true)
    (form : word ∈ forms) : e.isImmediate = true :=
  isImmediate_of_isForm (isForm_of_head headed form)

/-- A list that is no instruction does not come next. -/
theorem Clear.isHeadedBy {tail : List SExpr} (clear : Clear tail) {word : String} (form : word ∈ forms)
    {e : SExpr} (first : tail.head? = some e) : e.isHeadedBy word = false := by
  cases tail with
  | nil => cases first
  | cons e' rest =>
    obtain rfl := Option.some.inj first
    obtain ⟨-, notForm⟩ | ⟨_, keyword, -⟩ := clear
    · refine Bool.eq_false_iff.2 fun headed => ?_
      rw [isForm_of_head headed form] at notForm
      cases notForm
    · cases e' with
      | atom => rfl
      | list => cases keyword

/-- What begins with no immediate begins with no form. -/
theorem Clear.free {tail : List SExpr} (clear : Clear tail) : Free forms tail :=
  fun _ first _ form => clear.isHeadedBy form first

/-- No list of a form is taken where no immediate stands. -/
theorem Clear.takeList {tail : List SExpr} (clear : Clear tail) {word : String} (form : word ∈ forms)
    (span : Span) : Items.takeList ⟨tail, span⟩ word = (none, ⟨tail, span⟩) := by
  cases tail with
  | nil => rfl
  | cons e rest => simp [Items.takeList, clear.isHeadedBy form rfl]

/-- No name and no number comes next. -/
theorem Clear.notIndex {e : SExpr} {rest : List SExpr} (clear : Clear (e :: rest)) :
    e.id? = none ∧ e.number? = none := by
  obtain ⟨isList, -⟩ | ⟨_, keyword, -⟩ := clear
  · cases e with
    | atom => cases isList
    | list => exact ⟨rfl, rfl⟩
  · cases e with
    | atom token =>
      obtain ⟨kind, span⟩ := token
      cases kind <;> first | exact ⟨rfl, rfl⟩ | cases keyword
    | list => cases keyword

/-- No name is taken where no immediate stands. -/
theorem Clear.takeId {tail : List SExpr} (clear : Clear tail) (span : Span) :
    Items.takeId ⟨tail, span⟩ = (none, ⟨tail, span⟩) := by
  cases tail with
  | nil => rfl
  | cons e rest => simp [Items.takeId, clear.notIndex.1]

/-! ### Targets and memory arguments -/

/-- No targets are taken where no immediate stands. -/
theorem takeTargets_of_clear {tail : List SExpr} (clear : Clear tail) :
    takeTargets tail = .ok ([], tail) := by
  cases tail with
  | nil => rfl
  | cons e rest => simp [takeTargets, clear.notIndex]

/-- The targets of a table are the names and numbers that come next. -/
theorem takes_targets {es rest : List SExpr} {targets : List Node}
    (read : takeTargets es = .ok (targets, rest)) :
    ∃ xs, es = xs ++ rest ∧ (∀ e ∈ xs, e.isImmediate = true) ∧
      ∀ xs', List.Forall₂ SExpr.Same xs xs' → ∀ tail, Clear tail →
        takeTargets (xs' ++ tail) = .ok (targets, tail) := by
  have none_ : ∀ xs', List.Forall₂ SExpr.Same [] xs' → ∀ tail, Clear tail →
      takeTargets (xs' ++ tail) = .ok ([], tail) := by
    intro xs' same tail clear
    cases same
    exact takeTargets_of_clear clear
  induction es generalizing targets with
  | nil =>
    cases read
    exact ⟨[], rfl, nofun, none_⟩
  | cons e es ih =>
    unfold takeTargets at read
    split at read
    · next isIndex =>
      obtain ⟨index, first, read⟩ := bind_eq_ok_iff.1 read
      obtain ⟨⟨others, after⟩, second, read⟩ := bind_eq_ok_iff.1 read
      cases read
      obtain ⟨xs, rfl, kept, takes⟩ := ih second
      refine ⟨e :: xs, rfl, ?_, fun xs' same tail clear => ?_⟩
      · exact List.forall_mem_cons.2 ⟨isImmediate_of_atom (isList_of_parseIndex first), kept⟩
      · cases same with
        | cons here rest =>
          obtain ⟨_, first', rfl⟩ := (agrees_parseIndex here).follows index first
          rw [List.cons_append, takeTargets, here.id?, here.number?, if_pos isIndex, first', takes _ rest tail clear]
          rfl
    · cases read
      exact ⟨[], rfl, nofun, none_⟩

/-- No memory argument is taken where no immediate stands. -/
theorem takeMemArg_of_clear (m : MemArg) {tail : List SExpr} (clear : Clear tail) :
    takeMemArg m tail = .ok (m, tail) := by
  cases tail with
  | nil => rfl
  | cons e rest =>
    unfold takeMemArg
    obtain ⟨isList, -⟩ | ⟨word, keyword, offset, align⟩ := clear
    · cases e with
      | atom => cases isList
      | list => rfl
    · simp only [keyword, offset, align]

/-- A memory argument is the words for offset and alignment that come next. -/
theorem takes_memArg {es rest : List SExpr} {m memArg : MemArg}
    (read : takeMemArg m es = .ok (memArg, rest)) :
    ∃ xs, es = xs ++ rest ∧ (∀ e ∈ xs, e.isImmediate = true) ∧
      ∀ xs', List.Forall₂ SExpr.Same xs xs' → ∀ tail, Clear tail →
        takeMemArg m (xs' ++ tail) = .ok (memArg, tail) := by
  have none_ (m : MemArg) : ∀ xs', List.Forall₂ SExpr.Same [] xs' → ∀ tail, Clear tail →
      takeMemArg m (xs' ++ tail) = .ok (m, tail) := by
    intro xs' same tail clear
    cases same
    exact takeMemArg_of_clear m clear
  induction es generalizing m with
  | nil =>
    cases read
    exact ⟨[], rfl, nofun, none_ _⟩
  | cons e es ih =>
    unfold takeMemArg at read
    -- a word is put in front of what the rest takes
    have more {m' : MemArg} (read : takeMemArg m' es = .ok (memArg, rest)) {word : String}
        (keyword : e.keyword? = some word)
        (step : ∀ e' tail, e.Same e' → takeMemArg m (e' :: tail) = takeMemArg m' tail) :
        ∃ xs, e :: es = xs ++ rest ∧ (∀ e ∈ xs, e.isImmediate = true) ∧
          ∀ xs', List.Forall₂ SExpr.Same xs xs' → ∀ tail, Clear tail →
            takeMemArg m (xs' ++ tail) = .ok (memArg, tail) := by
      obtain ⟨xs, rfl, kept, takes⟩ := ih read
      refine ⟨e :: xs, rfl, ?_, fun xs' same tail clear => ?_⟩
      · exact List.forall_mem_cons.2 ⟨isImmediate_of_atom (isList_of_keyword? keyword), kept⟩
      · cases same with
        | cons here rest => rw [List.cons_append, step _ _ here, takes _ rest tail clear]
    split at read
    · cases read
      exact ⟨[], rfl, nofun, none_ _⟩
    · next word keyword =>
      split at read
      · next value offset =>
        split at read
        · next bytes spelled =>
          refine more read keyword fun e' tail same => ?_
          rw [takeMemArg, same.keyword?, keyword]
          simp only [offset, spelled]
        · cases read
      · next value offset align =>
        split at read
        · next bytes spelled =>
          refine more read keyword fun e' tail same => ?_
          rw [takeMemArg, same.keyword?, keyword]
          simp only [offset, align, spelled]
        · cases read
      · cases read
        exact ⟨[], rfl, nofun, none_ _⟩

/-! ### Instructions other than blocks -/

/-- An instruction without immediates. -/
theorem takes_nothing {α : Type} {r : Items → Parsed (α × Items)} {a : α}
    (reads : ∀ i, r i = .ok (a, i)) : Takes r a [] := by
  intro xs' same tail span _
  cases same
  exact reads _

/-- An instruction with one immediate. -/
theorem takes_one {α : Type} {r : Items → Parsed (α × Items)} {a : α} {e : SExpr}
    (reads : ∀ e', e.Same e' → ∀ rest span, r ⟨e' :: rest, span⟩ = .ok (a, ⟨rest, span⟩)) :
    Takes r a [e] := by
  intro xs' same tail span _
  cases same with
  | cons here others =>
    cases others
    exact reads _ here tail span

/-- What an instruction other than a block is read with. -/
structure WithImmediates (word : String) (i : Items) (node : Node) (after : Items) : Prop where
  known : (Opcode.ofMnemonic? word).isSome = true
  span : after.span = i.span
  imm : ∃ imm, i.rest = imm ++ after.rest ∧ (∀ e ∈ imm, e.isImmediate = true) ∧
    ∀ site, Takes (parseOp word site) node imm

section Op

variable {word : String} {site : SExpr} {i after : Items} {node : Node} {op : Opcode}
  (known : Opcode.ofMnemonic? word = some op)
include known

/-- An instruction without immediates takes nothing. -/
theorem withImmediates_bare (immediate : op.immediate = .none ∨ op.immediate = .memoryReserved)
    (read : parseOp word site i = .ok (node, after)) : WithImmediates word i node after := by
  have opened (site : SExpr) (i : Items) : parseOp word site i = .ok (plainNode op [] none, i) := by
    unfold parseOp
    obtain bare | bare := immediate <;> simp only [known, bare]
  obtain ⟨rfl, rfl⟩ := Prod.mk.inj (Except.ok.inj ((opened site i).symm.trans read))
  exact ⟨known ▸ rfl, rfl, [], rfl, nofun, fun site => takes_nothing (opened site)⟩

/-- An instruction that is read from the item after it alone. -/
theorem withImmediates_one {r : SExpr → Parsed Node}
    (opened : ∀ site e rest span, parseOp word site ⟨e :: rest, span⟩ =
      (r e >>= fun node => .ok (node, ⟨rest, span⟩)))
    (missing : ∀ site span, ∃ x, parseOp word site ⟨[], span⟩ = .error x)
    (atom : ∀ e node, r e = .ok node → e.isList = false)
    (agrees : ∀ e e', e.Same e' → Agrees Eq (r e) (r e'))
    (read : parseOp word site i = .ok (node, after)) : WithImmediates word i node after := by
  obtain ⟨rest, span⟩ := i
  cases rest with
  | nil =>
    obtain ⟨x, fails⟩ := missing site span
    rw [fails] at read
    cases read
  | cons e rest =>
    rw [opened] at read
    obtain ⟨node', first, read⟩ := bind_eq_ok_iff.1 read
    cases read
    refine ⟨known ▸ rfl, rfl, [e], rfl, List.forall_mem_singleton.2 (isImmediate_of_atom (atom e node first)),
      fun site => takes_one fun e' same rest span => ?_⟩
    obtain ⟨_, there, rfl⟩ := (agrees e e' same).follows node first
    rw [opened, there]
    rfl

/-- An instruction with an index takes one item. -/
theorem withImmediates_index (immediate : op.immediate = .index)
    (read : parseOp word site i = .ok (node, after)) : WithImmediates word i node after := by
  refine withImmediates_one known (r := fun e => do
    let index ← parseIndex e
    pure (if op.name == "call" then .call index else plainNode op [.ofIndex index] none))
    (fun site e rest span => ?_) (fun site span => ⟨⟨.missingArgument word, site.span⟩, ?_⟩) ?_ ?_ read
  · simp only [parseOp, known, immediate, Items.next, bind_assoc, pure_bind]
    refine bind_congr fun index => ?_
    split <;> rfl
  · simp only [parseOp, known, immediate, Items.next]
  · intro e node reads
    obtain ⟨index, reads, -⟩ := bind_eq_ok_iff.1 reads
    exact isList_of_parseIndex reads
  · exact fun e e' same => (agrees_parseIndex same).bind fun _ _ same => agrees_pure (same ▸ rfl)

/-- The constant instruction that is read from the item after its word. -/
def constantAfter (op : Opcode) (word : String) (e : SExpr) : Parsed Node :=
  match e.number? with
  | none => unexpected e "constant"
  | some raw =>
    match constantNode? op.immediate raw with
    | some literal => .ok (plainNode op [literal] none)
    | none => .error ⟨.invalidLiteral word raw, e.span⟩

omit known in
theorem agrees_constantAfter {e e' : SExpr} (same : e.Same e') :
    Agrees Eq (constantAfter op word e) (constantAfter op word e') := by
  rw [constantAfter, constantAfter, same.number?]
  split
  · exact agrees_unexpected same
  · split
    · exact .ok rfl
    · exact .error rfl

/-- A constant is read from the item that follows it. -/
theorem parseOp_of_constant
    (immediate : op.immediate = .i32 ∨ op.immediate = .i64 ∨ op.immediate = .f32 ∨ op.immediate = .f64)
    (site : SExpr) (i : Items) : parseOp word site i = match i.next with
      | (none, _) => .error ⟨.missingArgument word, site.span⟩
      | (some e, items) => constantAfter op word e >>= fun node => .ok (node, items) := by
  obtain kind | kind | kind | kind := immediate <;>
    simp only [parseOp, constantAfter, known, kind] <;>
    generalize i.next = q <;>
    obtain ⟨_ | e, items⟩ := q <;>
    dsimp only <;>
    cases e.number? with
    | none => rfl
    | some raw =>
      dsimp only
      generalize constantNode? _ raw = literal
      cases literal <;> rfl

/-- A constant takes one item. -/
theorem withImmediates_constant
    (immediate : op.immediate = .i32 ∨ op.immediate = .i64 ∨ op.immediate = .f32 ∨ op.immediate = .f64)
    (read : parseOp word site i = .ok (node, after)) : WithImmediates word i node after := by
  refine withImmediates_one known (r := constantAfter op word)
    (fun site e rest span => parseOp_of_constant known immediate site _)
    (fun site span => ⟨_, parseOp_of_constant known immediate site _⟩) ?_ (fun _ _ => agrees_constantAfter) read
  intro e node reads
  cases number : e.number? with
  | none =>
    simp only [constantAfter, number] at reads
    cases reads
  | some raw => exact isList_of_number? number

/-- A branch table takes its targets. -/
theorem withImmediates_brTable (immediate : op.immediate = .brTable)
    (read : parseOp word site i = .ok (node, after)) : WithImmediates word i node after := by
  have opened (site : SExpr) (i : Items) : parseOp word site i = takeTargets i.rest >>= fun taken =>
      if taken.1.isEmpty then .error ⟨.missingArgument "br_table", site.span⟩
      else pure (plainNode op taken.1 none, { i with rest := taken.2 }) := by
    simp only [parseOp, known, immediate]
  rw [opened] at read
  obtain ⟨⟨targets, rest⟩, first, read⟩ := bind_eq_ok_iff.1 read
  obtain ⟨xs, here, kept, takes⟩ := takes_targets first
  dsimp only at read
  split at read
  · cases read
  · next some_ =>
    cases read
    refine ⟨known ▸ rfl, rfl, xs, here, kept, fun site xs' same tail span clear => ?_⟩
    rw [opened, takes xs' same tail clear]
    show (if _ then _ else _) = _
    rw [if_neg some_]
    rfl

/-- A memory instruction takes its argument. -/
theorem withImmediates_memArg (immediate : op.immediate = .memArg)
    (read : parseOp word site i = .ok (node, after)) : WithImmediates word i node after := by
  have opened (site : SExpr) (i : Items) : parseOp word site i =
      takeMemArg ⟨naturalAlignment op, 0⟩ i.rest >>= fun taken =>
        pure (plainNode op [] (some taken.1), { i with rest := taken.2 }) := by
    simp only [parseOp, known, immediate]
  rw [opened] at read
  obtain ⟨⟨memArg, rest⟩, first, read⟩ := bind_eq_ok_iff.1 read
  obtain ⟨xs, here, kept, takes⟩ := takes_memArg first
  cases read
  refine ⟨known ▸ rfl, rfl, xs, here, kept, fun site xs' same tail span clear => ?_⟩
  rw [opened, takes xs' same tail clear]
  rfl

/-- An indirect call takes its signature. -/
theorem withImmediates_callIndirect (immediate : op.immediate = .callIndirect)
    (read : parseOp word site i = .ok (node, after)) : WithImmediates word i node after := by
  have opened (site : SExpr) (i : Items) : parseOp word site i =
      parseTypeUse i >>= fun taken => pure (.callIndirect taken.1, taken.2) := by
    simp only [parseOp, known, immediate]
  rw [opened] at read
  obtain ⟨⟨signature, items⟩, first, read⟩ := bind_eq_ok_iff.1 read
  obtain ⟨span, xs, here, kept, takes⟩ := headerReader_parseTypeUse.read first
  cases read
  refine ⟨known ▸ rfl, span, xs, here, fun e inside => isImmediate_of_isForm (kept e inside),
    fun site xs' same tail span clear => ?_⟩
  rw [opened, takes xs' same tail span clear.free]
  rfl

end Op

/-- An instruction is read with its immediates, and would be read so in front of anything else that it
could not take. -/
theorem withImmediates_of_parseOp {word : String} {site : SExpr} {i after : Items} {node : Node}
    (read : parseOp word site i = .ok (node, after)) : WithImmediates word i node after := by
  cases known : Opcode.ofMnemonic? word with
  | none =>
    simp only [parseOp, known] at read
    cases read
  | some op =>
    cases immediate : op.immediate with
    | none => exact withImmediates_bare known (.inl immediate) read
    | memoryReserved => exact withImmediates_bare known (.inr immediate) read
    | block =>
      simp only [parseOp, known, immediate] at read
      cases read
    | index => exact withImmediates_index known immediate read
    | brTable => exact withImmediates_brTable known immediate read
    | callIndirect => exact withImmediates_callIndirect known immediate read
    | memArg => exact withImmediates_memArg known immediate read
    | i32 => exact withImmediates_constant known (.inl immediate) read
    | i64 => exact withImmediates_constant known (.inr (.inl immediate)) read
    | f32 => exact withImmediates_constant known (.inr (.inr (.inl immediate))) read
    | f64 => exact withImmediates_constant known (.inr (.inr (.inr immediate))) read

/-! ## Words -/

/-- A beginning of words that no instruction has. -/
structure Foreign (start : String) : Prop where
  dotless : '.' ∉ start.toList
  types : ∀ t : Valtype, Text.beginsWith start t.name = false
  later : ∀ word ∈ ["local.get", "local.set", "local.tee", "global.get", "global.set", "memory.size",
    "memory.grow"], Text.beginsWith start word = false
  names : ∀ op ∈ Opcode.table, Text.beginsWith start op.name = false

/-- A text begins with another when it is that and a rest. -/
theorem beginsWith_iff {start s : String} :
    Text.beginsWith start s = true ↔ ∃ rest, s.toList = start.toList ++ rest := by
  rw [Text.beginsWith, List.isPrefixOf_iff_prefix]
  exact exists_congr fun _ => eq_comm

/-- A separator is found past what has none. -/
theorem cutChars?_append {c : Char} {cs : List Char} (apart : c ∉ cs) (ds : List Char) :
    Text.cutChars? c (cs ++ ds) = (Text.cutChars? c ds).map fun p => (cs ++ p.1, p.2) := by
  induction cs with
  | nil => simp
  | cons d cs ih =>
    obtain ⟨differ, apart⟩ := not_or.1 (List.mem_cons.not.1 apart)
    rw [List.cons_append, Text.cutChars?, if_neg (Ne.symm differ), ih apart, Option.map_map]
    rfl

/-- Each value type is spelled in one way. -/
theorem name_of_ofName? {s : String} {t : Valtype} (known : Valtype.ofName? s = some t) : s = t.name := by
  unfold Valtype.ofName? at known
  split at known <;> first | (obtain rfl := Option.some.inj known; rfl) | cases known

section Foreign

variable {start word : String} (foreign : Foreign start) (begins : Text.beginsWith start word = true)
include foreign begins

theorem beginsWith_of_cut? {before after : String} (cut : Text.cut? '.' word = some (before, after)) :
    Text.beginsWith start before = true := by
  obtain ⟨rest, here⟩ := beginsWith_iff.1 begins
  rw [Text.cut?, here, cutChars?_append foreign.dotless, Option.map_map] at cut
  obtain ⟨p, -, same⟩ := Option.map_eq_some_iff.1 cut
  obtain ⟨rfl, -⟩ := Prod.mk.inj same
  exact beginsWith_iff.2 ⟨p.1, String.toList_ofList⟩

/-- Rewriting a mnemonic keeps the beginnings of words that name no conversion. -/
theorem beginsWith_normalizeMnemonic :
    Text.beginsWith start (Opcode.normalizeMnemonic word) = true := by
  have other : ∀ w ∈ ["local.get", "local.set", "local.tee", "global.get", "global.set", "memory.size",
      "memory.grow"], word ≠ w := by
    rintro w listed rfl
    rw [foreign.later _ listed] at begins
    cases begins
  unfold Opcode.normalizeMnemonic
  split
  case h_8 =>
    split
    · next object op cut =>
      obtain ⟨rest, here⟩ := beginsWith_iff.1 (beginsWith_of_cut? foreign begins cut)
      refine beginsWith_iff.2 ⟨rest ++ ("." ++ Opcode.normalizeOperation op).toList, ?_⟩
      simp [here, String.toList_append]
    · exact begins
  all_goals exact absurd rfl (other _ (by simp))

theorem splitMnemonic_of_begins : Opcode.splitMnemonic word = (none, word) := by
  unfold Opcode.splitMnemonic
  cases cut : Text.cut? '.' word with
  | none => rfl
  | some p =>
    have early := beginsWith_of_cut? foreign begins cut
    have untyped : Valtype.ofName? p.1 = none := by
      refine Option.eq_none_iff_forall_ne_some.2 fun t known => ?_
      rw [name_of_ofName? known, foreign.types] at early
      cases early
    simp only [untyped]

/-- No instruction has a foreign beginning. -/
theorem unknown_of_begins : Opcode.ofMnemonic? word = none := by
  have begins' := beginsWith_normalizeMnemonic foreign begins
  unfold Opcode.ofMnemonic?
  rw [splitMnemonic_of_begins foreign begins']
  refine List.find?_eq_none.2 fun op listed same => ?_
  simp only [Bool.and_eq_true, beq_iff_eq] at same
  rw [← same.2, foreign.names op listed] at begins'
  cases begins'

end Foreign

set_option maxRecDepth 4000 in
/-- No instruction begins like a part of a memory argument. -/
theorem names_memArg : ∀ op ∈ Opcode.table,
    Text.beginsWith "offset=" op.name = false ∧ Text.beginsWith "align=" op.name = false := by
  intro op listed
  rw [Text.beginsWith, Text.beginsWith, Opcode.toList_name listed]
  revert op
  decide +kernel

theorem foreign_offset : Foreign "offset=" :=
  ⟨by decide, fun t => by cases t <;> decide, by decide, fun op listed => (names_memArg op listed).1⟩

theorem foreign_align : Foreign "align=" :=
  ⟨by decide, fun t => by cases t <;> decide, by decide, fun op listed => (names_memArg op listed).2⟩

/-- The word of an instruction is no part of a memory argument. -/
theorem after?_of_known {word : String} (known : (Opcode.ofMnemonic? word).isSome = true) :
    Text.after? "offset=" word = none ∧ Text.after? "align=" word = none := by
  have plain {start : String} (foreign : Foreign start) : Text.after? start word = none := by
    cases begins : Text.beginsWith start word with
    | false =>
      unfold Text.beginsWith at begins
      simp [Text.after?, begins]
    | true =>
      rw [unknown_of_begins foreign begins] at known
      cases known
  exact ⟨plain foreign_offset, plain foreign_align⟩

/-- Lists that are no instructions are not headed by the word of one. -/
theorem unknown_of_form : ∀ word ∈ forms, Opcode.ofMnemonic? word = none ∧ isBlockWord word = false := by
  decide +kernel

end WasmEngine.Wat
