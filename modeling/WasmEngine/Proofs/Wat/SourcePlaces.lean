import WasmEngine.Proofs.Wat.TokenTiling
import WasmEngine.Wat.Items

/-!
# Places in a source

The position of a cursor is a place between two characters, with the line and the column of that place as long as these
can be counted (`isPlace_of_reaches`).  What the lexer reports stands between two such cursors (`Cursor.Marks`), and
lists go from the place of one token to the end of a later one (`points_readAll`).
-/

namespace WasmEngine.Wat

/-! ## Places and spans -/

/-- A position between two characters.  Its offset counts the bytes before it, its line the ends of lines before it,
and its column the characters after the last of these. -/
def IsPlace (source : String) (p : Position) : Prop :=
  ∃ before after, source.toList = before ++ after ∧ p.offset = String.utf8Len before ∧
    p.line.toNat = 1 + before.count '\n' ∧ p.column.toNat = 1 + (before.reverse.takeWhile (· ≠ '\n')).length

/-- A span from a place to one that is not before it. -/
structure Span.Valid (source : String) (s : Span) : Prop where
  start : IsPlace source ⟨s.start, s.line, s.column, false⟩
  stop : String.Pos.Raw.Valid source ⟨s.stop⟩
  ordered : s.start ≤ s.stop
  within : s.stop ≤ source.utf8ByteSize

/-- A list goes from where it is opened to the end of a later token. -/
theorem Span.Valid.upTo {source : String} {s t : Span} (opening : s.Valid source) (closing : t.Valid source)
    (later : s.start ≤ t.stop) : Span.Valid source { s with stop := t.stop } :=
  ⟨opening.start, closing.stop, later, closing.within⟩

section Cursors

variable {source : String} {c c' : Cursor} {s : Span}

/-- A cursor that moves on from the start of a source knows its place, up to an overflow. -/
theorem isPlace_of_reaches (reached : (Cursor.start source).Reaches c) (room : c.pos.overflow = false) :
    IsPlace source c.pos := by
  obtain ⟨before, past⟩ := reached
  have counted : c.pos = Position.origin.steps before := past.pos_eq
  rw [counted] at room ⊢
  exact ⟨before, c.rest, past.rest_eq, (Position.offset_steps _ _).trans (Nat.zero_add _), Position.steps_origin room⟩

/-- Going forward does not lower the offset. -/
theorem Cursor.Reaches.offset_le (reaches : c.Reaches c') : c.pos.offset ≤ c'.pos.offset := by
  obtain ⟨cs, past⟩ := reaches
  rw [past.pos_eq, Position.offset_steps]
  exact Nat.le_add_right _ _

/-- No offset is past the source. -/
theorem offset_le_of_reaches (reached : (Cursor.start source).Reaches c) : c.pos.offset ≤ source.utf8ByteSize := by
  have toEnd : c.Past c.rest ⟨c.pos.steps c.rest, []⟩ := ⟨(List.append_nil _).symm, rfl⟩
  rw [← offset_of_reaches (reached.trans toEnd.reaches)]
  exact toEnd.reaches.offset_le

/-- What is left of a source is cut from it at a cursor. -/
theorem slice_rest (reached : (Cursor.start source).Reaches c) :
    slice source c.pos.offset source.utf8ByteSize = String.ofList c.rest := by
  have toEnd : c.Past c.rest ⟨c.pos.steps c.rest, []⟩ := ⟨(List.append_nil _).symm, rfl⟩
  rw [← offset_of_reaches (reached.trans toEnd.reaches)]
  exact slice_of_past reached toEnd

/-- A cursor as the lexer moves it: past some characters, past a run of them, past a gap or past an item. -/
inductive LexerState (source : String) : Cursor → Prop
  | start : LexerState source (.start source)
  | advance {c : Cursor} (state : LexerState source c) (n : Nat) : LexerState source (c.advance n)
  | afterRun {c : Cursor} (state : LexerState source c) (p : Char → Bool) : LexerState source (c.afterRun p)
  | afterGap {c : Cursor} (state : LexerState source c) : LexerState source (skipGap c.pos .blank c.rest).next
  | afterItem {c : Cursor} {item : Lexed Token} (state : LexerState source c) (gives : nextItem? c = some item) :
    LexerState source item.next

/-- Skipping a gap goes forward. -/
theorem reaches_skipGap (c : Cursor) : c.Reaches (skipGap c.pos .blank c.rest).next := by
  have skips := skipsTo c.pos c.rest
  obtain ⟨pos, rest⟩ := c
  dsimp only at skips ⊢
  generalize skipGap pos .blank rest = skipped at skips
  cases skips with
  | stops => exact (Cursor.past_append _ _ _).reaches
  | ends => exact ⟨rest, (List.append_nil rest).symm, rfl⟩
  | deep deep =>
    cases deep
    exact (Cursor.past_append _ _ _).reaches
  | @fails gap comment => exact ⟨gap ++ '(' :: comment, (List.append_nil _).symm, rfl⟩

/-- The states of the lexer are reached from the start. -/
theorem LexerState.reaches (state : LexerState source c) : (Cursor.start source).Reaches c := by
  induction state with
  | start => exact .refl _
  | advance _ n ih => exact ih.trans (Cursor.reaches_advance _ n)
  | afterRun _ p ih => exact ih.trans (Cursor.past_afterRun _ p).reaches
  | afterGap _ ih => exact ih.trans (reaches_skipGap _)
  | afterItem _ gives ih =>
    obtain ⟨_, _, past⟩ := past_nextItem? gives
    exact ih.trans past.reaches

/-- In a short source nothing overflows. -/
theorem room_of_size (small : source.utf8ByteSize < 2 ^ 32 - 1) (reached : (Cursor.start source).Reaches c) :
    c.pos.overflow = false := by
  obtain ⟨before, past⟩ := reached
  have whole : source.toList = before ++ c.rest := past.rest_eq
  have bytes := Position.length_le_utf8Len source.toList
  rw [String.utf8Len_toList, whole, List.length_append] at bytes
  cases overflow : c.pos.overflow with
  | false => rfl
  | true =>
    rw [past.pos_eq] at overflow
    have := Position.length_of_overflow overflow
    omega

/-- A stretch between two cursors that come one after the other, before any overflow. -/
def Cursor.Marks (c : Cursor) (s : Span) : Prop :=
  ∃ first last, c.Reaches first ∧ first.Reaches last ∧ last.pos.overflow = false ∧ s = first.pos.spanTo last.pos

/-- What is passed over is marked, if the position has room. -/
theorem Cursor.Passes.marks {next : Cursor} (passes : c.Passes next s) (room : next.pos.overflow = false) :
    c.Marks s :=
  let ⟨first, last, reaches, on, toEnd, same⟩ := passes
  ⟨first, last, reaches, on, toEnd.room room, same⟩

/-- What is marked from further on is marked from here. -/
theorem Cursor.Marks.after (marks : c'.Marks s) (reaches : c.Reaches c') : c.Marks s :=
  let ⟨first, last, reaches', on, room, same⟩ := marks
  ⟨first, last, reaches.trans reaches', on, room, same⟩

/-- What is marked from the start is a valid span. -/
theorem Cursor.Marks.valid (marks : (Cursor.start source).Marks s) : s.Valid source := by
  obtain ⟨first, last, reached, on, room, rfl⟩ := marks
  have reached' := reached.trans on
  exact ⟨isPlace_of_reaches reached (on.room room), valid_of_reaches reached', on.offset_le,
    offset_le_of_reaches reached'⟩

end Cursors

/-- What a run of the lexer reports stands where the run came by. -/
theorem Runs.marks {c : Cursor} {items : List (Except LexError Token)} (runs : Runs c items)
    (start : c.pos.overflow = false) :
    (∀ t, .ok t ∈ items → c.Marks t.span) ∧ ∀ e, .error e ∈ items → c.Marks e.span := by
  induction runs with
  | done => exact ⟨nofun, nofun⟩
  | @overflow c =>
    refine ⟨fun t listed => ?_, fun e listed => ?_⟩
    · cases List.mem_singleton.1 listed
    · cases List.mem_singleton.1 listed
      exact ⟨c, c, .refl c, .refl c, start, rfl⟩
  | item next room past _ _ ih =>
    have room := room_of_overflows room
    obtain ⟨tokens, fails⟩ := passes_nextItem? next
    obtain ⟨tokens', fails'⟩ := ih room
    refine ⟨fun t listed => ?_, fun e listed => ?_⟩
    · obtain here | later := List.mem_cons.1 listed
      · exact (tokens t here.symm).marks room
      · exact (tokens' t later).after past.reaches
    · obtain here | later := List.mem_cons.1 listed
      · exact (fails e here.symm).1.marks room
      · exact (fails' e later).after past.reaches

section LexItems

variable {source : String} {t : Token} {e : LexError}

/-- The span of a token is valid. -/
theorem valid_of_token (listed : .ok t ∈ lexItems source) : t.span.Valid source :=
  (((runs_lexItems source).marks rfl).1 t listed).valid

/-- The span of a lexical error is valid. -/
theorem valid_of_lexError (listed : .error e ∈ lexItems source) : e.span.Valid source :=
  (((runs_lexItems source).marks rfl).2 e listed).valid

end LexItems

/-! ## Lists

Readers of expressions take the places of their errors from what they read.
-/

/-- All spans in an expression have a property. -/
inductive SExpr.Stands (P : Span → Prop) : SExpr → Prop
  | atom {t : Token} (here : P t.span) : Stands P (.atom t)
  | list {span : Span} {items : List SExpr} (here : P span) (inside : ∀ e ∈ items, Stands P e) :
    Stands P (.list span items)

/-- What a reader gives has a property, and its error has a span with another one. -/
def Points {α : Type} (P : Span → Prop) (Q : α → Prop) : Parsed α → Prop
  | .ok a => Q a
  | .error e => P e.span

section Points

variable {α β : Type} {P : Span → Prop} {Q : α → Prop} {R : β → Prop}

theorem points_ok {a : α} (holds : Q a) : Points P Q (.ok a) := holds

theorem points_error {e : ParseError} (here : P e.span) : Points P Q (.error e) := here

/-- Readings in sequence point to places when both parts do. -/
theorem Points.bind {r : Parsed α} {f : α → Parsed β} (first : Points P Q r)
    (rest : ∀ a, Q a → Points P R (f a)) : Points P R (r >>= f) := by
  cases r with
  | ok a => exact rest a first
  | error e => exact first

theorem SExpr.Stands.span {e : SExpr} (stands : e.Stands P) : P e.span := by
  cases stands with
  | atom here => exact here
  | list here => exact here

end Points

/-- Lists that are open before an offset, and what they hold so far. -/
structure Nesting.OpenBefore (source : String) (bound : Nat) (n : Nesting) : Prop where
  opened : ∀ list ∈ n.opened,
    list.1.Valid source ∧ list.1.start ≤ bound ∧ ∀ e ∈ list.2, e.Stands (Span.Valid source)
  top : ∀ e ∈ n.top, e.Stands (Span.Valid source)

section Nest

variable {source : String} {bound bound' : Nat} {n : Nesting} {t : Token} {ts : List Token} {e : SExpr}

theorem Nesting.OpenBefore.mono (open_ : n.OpenBefore source bound) (le : bound ≤ bound') :
    n.OpenBefore source bound' :=
  ⟨fun list listed => let ⟨valid, before, inside⟩ := open_.opened list listed
    ⟨valid, before.trans le, inside⟩, open_.top⟩

/-- A further expression that stands keeps the open lists before the bound. -/
theorem Nesting.OpenBefore.push (open_ : n.OpenBefore source bound) (stands : e.Stands (Span.Valid source)) :
    (n.push e).OpenBefore source bound := by
  obtain ⟨opened, top⟩ := n
  cases opened with
  | nil => exact ⟨nofun, List.forall_mem_cons.2 ⟨stands, open_.top⟩⟩
  | cons list outer =>
    obtain ⟨⟨valid, before, inside⟩, others⟩ := List.forall_mem_cons.1 open_.opened
    have more := List.forall_mem_cons.2 ⟨stands, inside⟩
    exact ⟨List.forall_mem_cons.2 ⟨⟨valid, before, more⟩, others⟩, open_.top⟩

/-- One more token, behind all that are read. -/
theorem points_read (open_ : n.OpenBefore source bound) (valid : t.span.Valid source)
    (later : bound ≤ t.span.start) :
    Points (Span.Valid source) (Nesting.OpenBefore source t.span.stop) (n.read t) := by
  have open_ := open_.mono (later.trans valid.ordered)
  unfold Nesting.read
  split
  · split
    · exact points_error valid
    · exact points_ok ⟨List.forall_mem_cons.2 ⟨⟨valid, valid.ordered, nofun⟩, open_.opened⟩, open_.top⟩
  · obtain ⟨opened, top⟩ := n
    cases opened with
    | nil => exact points_error valid
    | cons list outer =>
      obtain ⟨⟨opening, before, inside⟩, others⟩ := List.forall_mem_cons.1 open_.opened
      have rest : Nesting.OpenBefore source t.span.stop ⟨outer, top⟩ := ⟨others, open_.top⟩
      refine points_ok (rest.push (.list (opening.upTo valid before) fun e listed => ?_))
      exact inside e (List.mem_reverse.1 listed)
  · exact points_ok (open_.push (.atom valid))

theorem points_nestingReadAll (open_ : n.OpenBefore source bound) (valid : ∀ t ∈ ts, t.span.Valid source)
    (later : ∀ t ∈ ts, bound ≤ t.span.start) (ordered : ts.Pairwise fun s t => s.span.stop ≤ t.span.start) :
    Points (Span.Valid source) (fun n => ∃ bound, n.OpenBefore source bound) (n.readAll ts) := by
  induction ts generalizing n bound with
  | nil => exact points_ok ⟨bound, open_⟩
  | cons t ts ih =>
    obtain ⟨here, valid⟩ := List.forall_mem_cons.1 valid
    obtain ⟨next, ordered⟩ := List.pairwise_cons.1 ordered
    have first := points_read open_ here (later t List.mem_cons_self)
    unfold Nesting.readAll
    split
    · next read =>
      rw [read] at first
      exact ih first valid next ordered
    · next read =>
      rw [read] at first
      exact first

/-- The expressions of a source stand in it, or its error does. -/
theorem points_readAll (source : String) :
    Points (Span.Valid source) (fun es => ∀ e ∈ es, e.Stands (Span.Valid source)) (readAll source) := by
  unfold readAll
  cases tokens : tokenise source with
  | error e =>
    exact points_error (valid_of_lexError (Outcome.mem_of_mapM_id_eq_error tokens))
  | ok ts =>
    obtain ⟨-, -, ordered⟩ := (tiled_of_tokenise tokens).spans_ordered
    have valid : ∀ t ∈ ts, t.span.Valid source := by
      intro t listed
      refine valid_of_token ?_
      rw [Outcome.mapM_id_eq_ok_iff.1 tokens]
      exact List.mem_map_of_mem listed
    have empty : Nesting.empty.OpenBefore source 0 := ⟨nofun, nofun⟩
    refine (points_nestingReadAll empty valid (fun t _ => Nat.zero_le _) ordered).bind fun n open_ => ?_
    obtain ⟨bound, open_⟩ := open_
    unfold Nesting.finish
    split
    · exact points_ok fun e listed => open_.top e (List.mem_reverse.1 listed)
    · next span items outer opened =>
      obtain ⟨valid, -⟩ := open_.opened (span, items) (by rw [opened]; exact List.mem_cons_self)
      exact points_error valid

end Nest

end WasmEngine.Wat
