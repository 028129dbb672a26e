import Mathlib.Data.List.TakeWhile
import WasmEngine.Proofs.Wat.Places

/-!
# Lists in front of instructions

Exports, imports, types, parameters, results and locals stand in lists in front of instructions.  A reader
of such lists does not look beyond them (`HeaderReader`).
-/

namespace WasmEngine.Wat

open Outcome

/-- The words of lists that are no instructions. -/
def forms : List String := ["export", "import", "mut", "type", "param", "result", "local"]

/-- Whether an expression is a list that is no instruction. -/
def SExpr.isForm (e : SExpr) : Bool :=
  match e.head? with
  | some word => forms.contains word
  | none => false

theorem isForm_of_head {e : SExpr} {word : String} (headed : e.isHeadedBy word = true) (form : word ∈ forms) :
    e.isForm = true := by
  have head : e.head? = some word := beq_iff_eq.1 headed
  simp [SExpr.isForm, head, form]

theorem headed_takeWhile (word : String) (xs : List SExpr) :
    ∀ e ∈ xs.takeWhile (·.isHeadedBy word), e.isHeadedBy word = true :=
  fun _ inside => List.mem_takeWhile_imp inside

/-- A list headed by a word comes next or does not. -/
theorem takeList_cases (i : Items) (word : String) :
    (i.takeList word = (none, i) ∧ ∀ e ∈ i.rest.head?, e.isHeadedBy word = false) ∨
      ∃ e rest, i.rest = e :: rest ∧ e.isHeadedBy word = true ∧ i.takeList word = (some e, ⟨rest, i.span⟩) := by
  obtain ⟨rest, span⟩ := i
  cases rest with
  | nil => exact .inl ⟨rfl, nofun⟩
  | cons e rest =>
    unfold Items.takeList
    dsimp only
    split
    · next headed => exact .inr ⟨e, rest, rfl, headed, rfl⟩
    · next other => exact .inl ⟨rfl, fun e' first => Option.some.inj first ▸ Bool.eq_false_iff.2 other⟩

/-- No list headed by one of the words comes next. -/
def Free (words : List String) (tail : List SExpr) : Prop :=
  ∀ e ∈ tail.head?, ∀ word ∈ words, e.isHeadedBy word = false

/-- What a reader gives, and some items after those that it left. -/
def withTail {α : Type} (tail : List SExpr) (r : α × Items) : α × Items :=
  (r.1, ⟨r.2.rest ++ tail, r.2.span⟩)

/-- A reader of lists in front of instructions: it takes lists that are no instructions, does not depend on
what is left to others as long as no list headed by one of its words comes there, and does not depend on
places. -/
structure HeaderReader {α : Type} (words : List String) (r : Items → Parsed (α × Items)) : Prop where
  takes : ∀ i a after, r i = .ok (a, after) →
    after.span = i.span ∧ ∃ xs, i.rest = xs ++ after.rest ∧ ∀ e ∈ xs, e.isForm = true
  alone : ∀ xs ys tail span span' a, r ⟨xs ++ tail, span⟩ = .ok (a, ⟨ys ++ tail, span'⟩) →
    r ⟨xs, span⟩ = .ok (a, ⟨ys, span'⟩)
  frame : ∀ xs tail span, Free words tail →
    r ⟨xs ++ tail, span⟩ = (r ⟨xs, span⟩).map (withTail tail)
  agrees : ∀ i i', SameItems i i' → Agrees SameAfter (r i) (r i')

theorem headerReader_pure {α : Type} (words : List String) (a : α) :
    HeaderReader words fun i => .ok (a, i) where
  takes _ _ _ read := by
    cases read
    exact ⟨rfl, [], rfl, List.forall_mem_nil _⟩
  alone xs ys tail span span' b read := by
    obtain ⟨rfl, same⟩ := Prod.mk.inj (Except.ok.inj read)
    obtain rfl : span = span' := congrArg Items.span same
    obtain rfl : xs = ys := List.append_cancel_right (congrArg Items.rest same)
    rfl
  frame _ _ _ _ := rfl
  agrees _ _ same := .ok ⟨rfl, same⟩

/-- Readings of headers in sequence read a header. -/
theorem HeaderReader.bind {α β : Type} {words : List String} {r : Items → Parsed (α × Items)}
    {f : α → Items → Parsed (β × Items)} (first : HeaderReader words r)
    (rest : ∀ a, HeaderReader words (f a)) : HeaderReader words fun i => r i >>= fun p => f p.1 p.2 where
  takes i b after read := by
    obtain ⟨⟨a, mid⟩, here, there⟩ := bind_eq_ok_iff.1 read
    obtain ⟨span, xs, split, kept⟩ := first.takes i a mid here
    obtain ⟨span', ys, split', kept'⟩ := (rest a).takes mid b after there
    refine ⟨span'.trans span, xs ++ ys, ?_, List.forall_mem_append.2 ⟨kept, kept'⟩⟩
    rw [split, split', List.append_assoc]
  alone xs ys tail span span' b read := by
    obtain ⟨⟨a, mid⟩, here, there⟩ := bind_eq_ok_iff.1 read
    obtain ⟨-, zs, split, -⟩ := (rest a).takes mid b _ there
    obtain ⟨_, place⟩ := mid
    rw [← List.append_assoc] at split
    dsimp only at split there
    subst split
    exact bind_eq_ok_iff.2 ⟨_, first.alone xs (zs ++ ys) tail span place a here,
      (rest a).alone (zs ++ ys) ys tail place span' b there⟩
  frame xs tail span free := by
    rw [first.frame xs tail span free]
    cases r ⟨xs, span⟩ with
    | error e => rfl
    | ok p => exact (rest p.1).frame p.2.rest tail p.2.span free
  agrees i i' same := (first.agrees i i' same).bind fun p p' ⟨values, items⟩ => by
    rw [← values]
    exact (rest p.1).agrees p.2 p'.2 items

/-- Lists in a row with the same head, each read alike. -/
def readLists {α : Type} (word : String) (parse : SExpr → Parsed α) (i : Items) :
    Parsed (List α × Items) := do
  let values ← (i.takeLists word).1.mapM parse
  return (values, (i.takeLists word).2)

/-- A list with some head, if it comes next. -/
def readList? {α : Type} (word : String) (parse : SExpr → Parsed α) (i : Items) :
    Parsed (Option α × Items) :=
  match i.takeList word with
  | (none, items) => .ok (none, items)
  | (some e, items) => do
    let value ← parse e
    return (some value, items)

/-- Taking lists does not see past a tail that begins with none. -/
theorem takeLists_frame {word : String} {words : List String} {tail : List SExpr} (free : Free words tail)
    (listed : word ∈ words) (xs : List SExpr) (span : Span) :
    Items.takeLists ⟨xs ++ tail, span⟩ word = withTail tail (Items.takeLists ⟨xs, span⟩ word) := by
  unfold Items.takeLists withTail
  dsimp only
  induction xs with
  | nil =>
    cases tail with
    | nil => rfl
    | cons e rest => simp [free e rfl word listed]
  | cons e xs ih =>
    rw [List.cons_append, List.takeWhile_cons, List.takeWhile_cons, List.dropWhile_cons, List.dropWhile_cons]
    obtain ⟨taken, left⟩ := Prod.mk.inj ih
    split
    · rw [taken, (Items.mk.inj left).1]
    · rfl

/-- Lists are taken alike without the tail. -/
theorem takeLists_alone {word : String} {tail : List SExpr} {xs ys : List SExpr} {span : Span}
    (left : (Items.takeLists ⟨xs ++ tail, span⟩ word).2.rest = ys ++ tail) :
    Items.takeLists ⟨xs, span⟩ word = ((Items.takeLists ⟨xs ++ tail, span⟩ word).1, ⟨ys, span⟩) := by
  unfold Items.takeLists at left ⊢
  dsimp only at left ⊢
  induction xs with
  | nil =>
    rw [List.nil_append] at left ⊢
    have whole := List.takeWhile_append_dropWhile (p := (·.isHeadedBy word)) (l := tail)
    rw [left, ← List.append_assoc] at whole
    obtain ⟨none_, rfl⟩ := List.append_eq_nil_iff.1 (List.append_left_eq_self.1 whole)
    rw [none_]
    rfl
  | cons e xs ih =>
    rw [List.cons_append] at left ⊢
    rw [List.takeWhile_cons, List.takeWhile_cons, List.dropWhile_cons]
    rw [List.dropWhile_cons] at left
    cases headed : e.isHeadedBy word with
    | true =>
      simp only [headed, if_true] at left ⊢
      obtain ⟨taken, others⟩ := Prod.mk.inj (ih left)
      rw [taken, (Items.mk.inj others).1]
    | false =>
      simp only [headed, Bool.false_eq_true, if_false] at left ⊢
      obtain rfl : e :: xs = ys := List.append_cancel_right (show (e :: xs) ++ tail = ys ++ tail from left)
      rfl

section Readers

variable {α : Type} {words : List String} {word : String} {parse : SExpr → Parsed α}

/-- Reading all lists of a head reads a header. -/
theorem headerReader_readLists (listed : word ∈ words) (form : word ∈ forms)
    (alike : ∀ e e', e.Same e' → Agrees Eq (parse e) (parse e')) :
    HeaderReader words (readLists word parse) where
  takes i values after read := by
    obtain ⟨_, _, read⟩ := bind_eq_ok_iff.1 read
    cases read
    exact ⟨rfl, i.rest.takeWhile (·.isHeadedBy word), (List.takeWhile_append_dropWhile).symm,
      fun e inside => isForm_of_head (headed_takeWhile word i.rest e inside) form⟩
  alone xs ys tail span span' values read := by
    obtain ⟨values', each, read⟩ := bind_eq_ok_iff.1 read
    obtain ⟨rfl, left⟩ := Prod.mk.inj (Except.ok.inj read)
    obtain rfl : span = span' := congrArg Items.span left
    unfold readLists
    rw [takeLists_alone (congrArg Items.rest left)]
    exact bind_eq_ok_iff.2 ⟨_, each, rfl⟩
  frame xs tail span free := by
    unfold readLists
    rw [takeLists_frame free listed]
    unfold withTail
    dsimp only
    cases List.mapM parse (Items.takeLists ⟨xs, span⟩ word).1 <;> rfl
  agrees i i' same := by
    obtain ⟨taken, left⟩ := same.takeLists word
    exact (agrees_mapM taken alike).bind fun _ _ values => agrees_pure ⟨values, left⟩

/-- Reading a list of a head, if there is one, reads a header. -/
theorem headerReader_readList? (listed : word ∈ words) (form : word ∈ forms)
    (alike : ∀ e e', e.Same e' → Agrees Eq (parse e) (parse e')) :
    HeaderReader words (readList? word parse) where
  takes i value after read := by
    unfold readList? at read
    obtain ⟨none_, -⟩ | ⟨e, rest, here, headed, some_⟩ := takeList_cases i word
    · rw [none_] at read
      cases read
      exact ⟨rfl, [], rfl, List.forall_mem_nil _⟩
    · rw [some_] at read
      obtain ⟨_, _, read⟩ := bind_eq_ok_iff.1 read
      cases read
      exact ⟨rfl, [e], here, List.forall_mem_singleton.2 (isForm_of_head headed form)⟩
  alone xs ys tail span span' value read := by
    unfold readList? at read ⊢
    obtain ⟨none_, other⟩ | ⟨e, rest, here, headed, some_⟩ := takeList_cases ⟨xs ++ tail, span⟩ word
    · rw [none_] at read
      obtain ⟨rfl, same⟩ := Prod.mk.inj (Except.ok.inj read)
      obtain rfl : span = span' := congrArg Items.span same
      obtain rfl : xs = ys := List.append_cancel_right (congrArg Items.rest same)
      cases xs with
      | nil => rfl
      | cons e xs =>
        have other : e.isHeadedBy word = false := other e rfl
        simp only [Items.takeList, other, Bool.false_eq_true, if_false]
    · rw [some_] at read
      obtain ⟨value', inside, read⟩ := bind_eq_ok_iff.1 read
      obtain ⟨rfl, same⟩ := Prod.mk.inj (Except.ok.inj read)
      obtain ⟨rfl, rfl⟩ := Items.mk.inj same
      obtain rfl : xs = e :: ys := List.append_cancel_right here
      simp only [Items.takeList, headed, if_true, inside]
      rfl
  frame xs tail span free := by
    unfold readList? Items.takeList
    cases xs with
    | nil =>
      cases tail with
      | nil => rfl
      | cons e rest =>
        have other := free e rfl word listed
        simp only [List.nil_append, other, Bool.false_eq_true, if_false]
        rfl
    | cons e xs =>
      dsimp only [List.cons_append]
      cases e.isHeadedBy word with
      | false => rfl
      | true =>
        simp only [if_true]
        cases parse e <;> rfl
  agrees i i' same := by
    have taken := same.takeList word
    unfold readList?
    generalize i.takeList word = r at taken ⊢
    generalize i'.takeList word = r' at taken ⊢
    cases taken with
    | none left => exact .ok ⟨rfl, left⟩
    | some here left =>
      exact (alike _ _ here).bind fun _ _ value => agrees_pure ⟨congrArg some value, left⟩

end Readers

/-! ## Type uses -/

/-- The type use of a reference and a signature, of which the reference counts only if it stands
alone. -/
def typeUse (type : Option Index) (s : Signature) : SignatureRef :=
  match type with
  | some index => if s.params.isEmpty && s.results.isEmpty then .ref index else .inline s
  | none => .inline s

/-- The reference in a list `(type x)`. -/
def referred (e : SExpr) : Parsed Index :=
  match (Items.ofExpr e).next with
  | (none, _) => .error ⟨.expectedTypeIndex, e.span⟩
  | (some index, inner) => do
    let index ← parseIndex index
    inner.expectEnd "type use"
    pure index

theorem agrees_referred {e e' : SExpr} (same : e.Same e') :
    Agrees Eq (referred e) (referred e') := by
  have inside := (sameItems_ofExpr same).next
  unfold referred
  generalize (Items.ofExpr e).next = q at inside ⊢
  generalize (Items.ofExpr e').next = q' at inside ⊢
  cases inside with
  | none => exact .error rfl
  | some index ends =>
    exact (agrees_parseIndex index).bind fun _ _ indices => (agrees_expectEnd ends _).bind
      fun _ _ _ => agrees_pure indices

/-- A type use is read as a reference, parameters and results, all of which may be missing. -/
theorem parseTypeUse_eq (i : Items) : parseTypeUse i = (do
    let (type, i) ← readList? "type" referred i
    let (params, i) ← readLists "param" parseParams i
    let (results, i) ← readLists "result" parseResults i
    pure (typeUse type ⟨params.flatten, results.flatten⟩, i)) := by
  have typed : parseTypeRef i = readList? "type" referred i := by
    unfold parseTypeRef readList? referred
    generalize i.takeList "type" = q
    obtain ⟨_ | e, items⟩ := q
    · rfl
    · dsimp only
      generalize (Items.ofExpr e).next = q
      obtain ⟨_ | index, inner⟩ := q
      · rfl
      · simp only [bind_assoc, pure_bind]
  unfold parseTypeUse parseSignature readLists
  rw [typed]
  refine bind_congr fun q => ?_
  obtain ⟨type, i⟩ := q
  simp only [bind_assoc, pure_bind]
  refine bind_congr fun params => bind_congr fun results => ?_
  cases type with
  | none => rfl
  | some index =>
    unfold typeUse
    dsimp only
    split <;> rfl

/-- Reading a type use reads a header. -/
theorem headerReader_parseTypeUse : HeaderReader forms parseTypeUse := by
  have types : HeaderReader forms (readList? "type" referred) :=
    headerReader_readList? (by decide) (by decide) fun _ _ => agrees_referred
  have params : HeaderReader forms (readLists "param" parseParams) :=
    headerReader_readLists (by decide) (by decide) fun _ _ => agrees_parseParams
  have results : HeaderReader forms (readLists "result" parseResults) :=
    headerReader_readLists (by decide) (by decide) fun _ _ => agrees_parseResults
  rw [funext parseTypeUse_eq]
  exact types.bind fun type => params.bind fun ps => results.bind fun rs =>
    headerReader_pure forms (typeUse type ⟨ps.flatten, rs.flatten⟩)

/-- What a reader takes, it takes at whatever places and in front of anything that it leaves. -/
theorem HeaderReader.read {α : Type} {words : List String} {r : Items → Parsed (α × Items)}
    (reader : HeaderReader words r) {i after : Items} {a : α} (read : r i = .ok (a, after)) :
    after.span = i.span ∧ ∃ xs, i.rest = xs ++ after.rest ∧ (∀ e ∈ xs, e.isForm = true) ∧
      ∀ xs', List.Forall₂ SExpr.Same xs xs' → ∀ tail span, Free words tail →
        r ⟨xs' ++ tail, span⟩ = .ok (a, ⟨tail, span⟩) := by
  obtain ⟨place, xs, split, kept⟩ := reader.takes i a after read
  refine ⟨place, xs, split, kept, fun xs' same tail span free => ?_⟩
  obtain ⟨rest, start⟩ := i
  obtain ⟨left, stop⟩ := after
  dsimp only at split place
  subst split place
  have alone := reader.alone xs [] left stop stop a read
  obtain ⟨⟨b, ⟨nothing, stop'⟩⟩, alone', values, items⟩ := (reader.agrees ⟨xs, stop⟩ ⟨xs', span⟩ same).follows _ alone
  dsimp only at values
  subst values
  cases items
  have place' : stop' = span := (reader.takes _ _ _ alone').1
  rw [reader.frame xs' tail span free, alone', place']
  rfl

end WasmEngine.Wat
