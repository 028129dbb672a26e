import Mathlib.Data.List.TakeWhile
import WasmEngine.Proofs.Wat.Positions
import WasmEngine.Wat.Lexer

/-!
# Gaps between tokens

Blanks, line comments and block comments make up gaps (`Layout`), and gaps are what the lexer skips
(`skipsTo`): it stops where no gap goes on, or at the end of the source, which may end a line comment but no
block comment.  Only where so many block comments are open that no more can be counted does it stop before
(`TooDeep`), which takes a source of 4 GiB.
-/

namespace WasmEngine.Wat

/-! ## What gaps are made of -/

/-- A character that neither opens nor closes a block comment, in front of others. -/
def Inert (c : Char) (cs : List Char) : Prop :=
  (c = '(' → cs.head? ≠ some ';') ∧ (c = ';' → cs.head? ≠ some ')')

/-- A block comment after its opening: everything up to the closing that belongs to it, with other block
comments in between. -/
inductive CommentTail : List Char → Prop
  | close : CommentTail [';', ')']
  | nested {cs ds : List Char} (inside : CommentTail cs) (rest : CommentTail ds) :
    CommentTail ('(' :: ';' :: (cs ++ ds))
  | char {c : Char} {cs : List Char} (inert : Inert c cs) (rest : CommentTail cs) : CommentTail (c :: cs)

/-- Blanks, line comments with the ends of their lines, and block comments. -/
inductive Layout : List Char → Prop
  | nil : Layout []
  | blank {c : Char} {cs : List Char} (blank : isBlank c = true) (rest : Layout cs) : Layout (c :: cs)
  | line {text cs : List Char} (oneLine : '\n' ∉ text) (rest : Layout cs) :
    Layout (';' :: ';' :: (text ++ '\n' :: cs))
  | block {cs ds : List Char} (comment : CommentTail cs) (rest : Layout ds) :
    Layout ('(' :: ';' :: (cs ++ ds))

/-- What may stand at the end of a source: the last line comment needs no end of its line. -/
inductive LastLayout : List Char → Prop
  | closed {cs : List Char} (layout : Layout cs) : LastLayout cs
  | comment {cs text : List Char} (layout : Layout cs) (oneLine : '\n' ∉ text) :
    LastLayout (cs ++ ';' :: ';' :: text)

/-- No gap begins here: no blank and no comment comes next. -/
def NoGap : List Char → Prop
  | [] => True
  | c :: cs => isBlank c = false ∧ (c = ';' ∨ c = '(' → cs.head? ≠ some ';')

theorem CommentTail.ne_nil {cs : List Char} (tail : CommentTail cs) : cs ≠ [] := by
  cases tail <;> exact List.cons_ne_nil _ _

/-- Layouts follow each other. -/
theorem Layout.append {cs ds : List Char} (first : Layout cs) (rest : Layout ds) : Layout (cs ++ ds) := by
  induction first with
  | nil => exact rest
  | blank blank _ ih => exact .blank blank ih
  | @line text cs oneLine _ ih =>
    rw [List.cons_append, List.cons_append, List.append_assoc]
    exact .line oneLine ih
  | block comment _ ih =>
    rw [List.cons_append, List.cons_append, List.append_assoc]
    exact .block comment ih

/-- A layout before a last one makes a last one. -/
theorem LastLayout.after {cs ds : List Char} (first : Layout cs) (rest : LastLayout ds) :
    LastLayout (cs ++ ds) := by
  cases rest with
  | closed layout => exact .closed (first.append layout)
  | comment layout oneLine =>
    rw [← List.append_assoc]
    exact .comment (first.append layout) oneLine

/-- What is inert stays so before other characters. -/
theorem Inert.append {c : Char} {cs : List Char} (inert : Inert c cs) (some_ : cs ≠ []) (ds : List Char) :
    Inert c (cs ++ ds) := by
  obtain ⟨d, cs, rfl⟩ := List.exists_cons_of_ne_nil some_
  exact inert

/-- A character is inert unless it opens or closes a comment. -/
theorem inert_or (c : Char) (cs : List Char) :
    Inert c cs ∨ (∃ ds, c = '(' ∧ cs = ';' :: ds) ∨ ∃ ds, c = ';' ∧ cs = ')' :: ds := by
  by_cases opens : c = '(' ∧ cs.head? = some ';'
  · obtain ⟨ds, rest⟩ := List.head?_eq_some_iff.1 opens.2
    exact .inr (.inl ⟨ds, opens.1, rest⟩)
  by_cases closes : c = ';' ∧ cs.head? = some ')'
  · obtain ⟨ds, rest⟩ := List.head?_eq_some_iff.1 closes.2
    exact .inr (.inr ⟨ds, closes.1, rest⟩)
  exact .inl ⟨fun c' same => opens ⟨c', same⟩, fun c' same => closes ⟨c', same⟩⟩

/-- What follows is a gap's beginning or no gap. -/
theorem noGap_or (cs : List Char) : NoGap cs ∨ (∃ c ds, cs = c :: ds ∧ isBlank c = true) ∨
    (∃ ds, cs = ';' :: ';' :: ds) ∨ ∃ ds, cs = '(' :: ';' :: ds := by
  cases cs with
  | nil => exact .inl trivial
  | cons c cs =>
    cases blank : isBlank c with
    | true => exact .inr (.inl ⟨c, cs, rfl, blank⟩)
    | false =>
      by_cases comment : (c = ';' ∨ c = '(') ∧ cs.head? = some ';'
      · obtain ⟨ds, rfl⟩ := List.head?_eq_some_iff.1 comment.2
        obtain rfl | rfl := comment.1
        · exact .inr (.inr (.inl ⟨ds, rfl⟩))
        · exact .inr (.inr (.inr ⟨ds, rfl⟩))
      · exact .inl ⟨blank, fun opens same => comment ⟨opens, same⟩⟩

/-! ## Comments that cannot be counted -/

/-- How many block comments inside one another can be counted. -/
def maxCommentDepth : Nat := 2 ^ 31 - 1

/-- Where a gap stands inside `depth` block comments. -/
def Gap.inside (start : Position) : Nat → Gap
  | 0 => .blank
  | depth + 1 => .blockComment start (.ofNat (depth + 1))

/-- Skipping from inside `depth` block comments stopped where one more opens than can be counted.  Each of them is
opened with two characters. -/
inductive TooDeep (pos : Position) (depth : Nat) : List Char → Lexed Unit → Prop
  | intro {gap rest : List Char} (deep : 2 * maxCommentDepth ≤ 2 * depth + gap.length) :
    TooDeep pos depth (gap ++ '(' :: ';' :: rest)
      (.failAt .overflow (pos.steps gap) ⟨pos.steps gap, '(' :: ';' :: rest⟩)

/-- Skipping comes to the same as something else does, unless block comments are too deep. -/
def Skips (pos : Position) (depth : Nat) (cs : List Char) (r r' : Lexed Unit) : Prop :=
  r = r' ∨ TooDeep pos depth cs r

section TooDeep

variable {pos : Position} {depth depth' : Nat} {gap cs : List Char} {r r' r'' : Lexed Unit}

/-- Characters in front open one more comment for each two of them at most. -/
theorem TooDeep.after (deep : TooDeep (pos.steps gap) depth' cs r)
    (opened : 2 * depth' ≤ 2 * depth + gap.length) : TooDeep pos depth (gap ++ cs) r := by
  obtain @⟨gap', rest, deep⟩ := deep
  rw [← List.append_assoc, ← Position.steps_append]
  refine .intro ?_
  rw [List.length_append]
  omega

theorem Skips.refl (r : Lexed Unit) : Skips pos depth cs r r := .inl rfl

/-- First up to some place, and from there on. -/
theorem Skips.trans (first : Skips pos depth (gap ++ cs) r r') (rest : Skips (pos.steps gap) depth' cs r' r'')
    (opened : 2 * depth' ≤ 2 * depth + gap.length) : Skips pos depth (gap ++ cs) r r'' := by
  rcases first with rfl | deep
  · exact rest.imp id (·.after opened)
  · exact .inr deep

/-- Only long texts have comments that are too deep. -/
theorem TooDeep.length_le (deep : TooDeep pos 0 cs r) : 2 ^ 32 ≤ cs.length := by
  obtain @⟨gap, rest, deep⟩ := deep
  unfold maxCommentDepth at deep
  simp only [List.length_append, List.length_cons]
  omega

end TooDeep

/-! ## Skipping -/

section Steps

variable (pos : Position) (start : Position)

/-- Two semicolons begin a comment up to the end of the line. -/
theorem skipGap_openLine (cs : List Char) : skipGap pos .blank (';' :: ';' :: cs) =
    skipGap ((pos.step ';').step ';') .lineComment cs := rfl

/-- A parenthesis and a semicolon open a block comment. -/
theorem skipGap_openBlock (cs : List Char) : skipGap pos .blank ('(' :: ';' :: cs) =
    skipGap ((pos.step '(').step ';') (.inside pos 1) cs := rfl

/-- A line comment ends with its line. -/
theorem skipGap_inLine (c : Char) (cs : List Char) : skipGap pos .lineComment (c :: cs) =
    skipGap (pos.step c) (if c = '\n' then .blank else .lineComment) cs := rfl

/-- The depth of block comments as it is counted. -/
theorem ofNat_eq_iff {m n : Nat} (counted : m ≤ maxCommentDepth) (counted' : n ≤ maxCommentDepth) :
    Int32.ofNat m = Int32.ofNat n ↔ m = n := by
  unfold maxCommentDepth at counted counted'
  rw [← Int32.toInt_inj, Int32.toInt_ofNat_of_lt (by omega), Int32.toInt_ofNat_of_lt (by omega), Int.natCast_inj]

/-- An opening inside a comment nests, while there is room to count it. -/
theorem skipGap_nested {depth : Nat} (room : depth + 1 < maxCommentDepth) (cs : List Char) :
    skipGap pos (.inside start (depth + 1)) ('(' :: ';' :: cs) =
      skipGap ((pos.step '(').step ';') (.inside start (depth + 2)) cs := by
  have notFull : Int32.ofNat (depth + 1) ≠ Int32.maxValue := fun full =>
    room.ne ((ofNat_eq_iff room.le (Nat.le_refl maxCommentDepth)).1 full)
  unfold Gap.inside
  rw [skipGap, if_neg notFull]
  exact congrArg (skipGap _ · cs) (congrArg _ (Int32.ofNat_add (depth + 1) 1).symm)

/-- No more comments than can be counted. -/
theorem skipGap_full (cs : List Char) : skipGap pos (.inside start maxCommentDepth) ('(' :: ';' :: cs) =
    .failAt .overflow pos ⟨pos, '(' :: ';' :: cs⟩ := by
  have full : Int32.ofNat maxCommentDepth = Int32.maxValue := rfl
  show skipGap pos (.blockComment start (.ofNat maxCommentDepth)) ('(' :: ';' :: cs) = _
  rw [skipGap, if_pos full]

/-- A closing inside a comment leaves one level of it. -/
theorem skipGap_close {depth : Nat} (counted : depth < maxCommentDepth) (cs : List Char) :
    skipGap pos (.inside start (depth + 1)) (';' :: ')' :: cs) =
      skipGap ((pos.step ';').step ')') (.inside start depth) cs := by
  have last : Int32.ofNat (depth + 1) = 1 ↔ depth = 0 :=
    (ofNat_eq_iff counted (by decide : 1 ≤ maxCommentDepth)).trans (by omega)
  unfold Gap.inside
  rw [skipGap]
  cases depth with
  | zero => rw [if_pos (last.2 rfl)]
  | succ depth =>
    rw [if_neg (fun one => Nat.succ_ne_zero depth (last.1 one)), Int32.ofNat_add (depth + 1) 1]
    exact congrArg (skipGap _ · cs) (congrArg _ (Int32.add_sub_cancel _ _))

/-- Where no comment begins, blanks are skipped and nothing else. -/
theorem skipGap_char {c : Char} {cs : List Char} (noComment : c = ';' ∨ c = '(' → cs.head? ≠ some ';') :
    skipGap pos .blank (c :: cs) =
      if isBlank c then skipGap (pos.step c) .blank cs else ⟨.ok (), ⟨pos, c :: cs⟩⟩ := by
  rw [skipGap]
  · exact fun ds same rest => noComment (.inl same) (rest ▸ rfl)
  · exact fun ds same rest => noComment (.inr same) (rest ▸ rfl)

/-- A blank is skipped. -/
theorem skipGap_of_isBlank {c : Char} (blank : isBlank c = true) (cs : List Char) :
    skipGap pos .blank (c :: cs) = skipGap (pos.step c) .blank cs := by
  rw [skipGap_char, if_pos blank]
  rintro (rfl | rfl)
  · cases blank
  · cases blank

/-- What is no gap is not skipped. -/
theorem skipGap_of_noGap {cs : List Char} (noGap : NoGap cs) :
    skipGap pos .blank cs = ⟨.ok (), ⟨pos, cs⟩⟩ := by
  cases cs with
  | nil => rfl
  | cons c cs => rw [skipGap_char pos noGap.2, noGap.1, if_neg Bool.false_ne_true]

/-- Inside a comment, an inert character is skipped. -/
theorem skipGap_of_inert (depth : Nat) {c : Char} {cs : List Char} (inert : Inert c cs) :
    skipGap pos (.inside start (depth + 1)) (c :: cs) =
      skipGap (pos.step c) (.inside start (depth + 1)) cs := by
  unfold Gap.inside
  rw [skipGap]
  · exact fun ds same rest => inert.1 same (rest ▸ rfl)
  · exact fun ds same rest => inert.2 same (rest ▸ rfl)

/-- A line comment goes up to the end of its line. -/
theorem skipGap_line {text : List Char} (oneLine : '\n' ∉ text) (cs : List Char) :
    skipGap pos .lineComment (text ++ '\n' :: cs) = skipGap (pos.steps (text ++ ['\n'])) .blank cs := by
  induction text generalizing pos with
  | nil => rfl
  | cons c text ih =>
    obtain ⟨other, rest⟩ := List.ne_and_not_mem_of_not_mem_cons oneLine
    rw [List.cons_append, skipGap_inLine, if_neg (Ne.symm other), ih _ rest]
    rfl

/-- The end of the source ends a line comment. -/
theorem skipGap_lastLine {text : List Char} (oneLine : '\n' ∉ text) :
    skipGap pos .lineComment text = ⟨.ok (), ⟨pos.steps text, []⟩⟩ := by
  induction text generalizing pos with
  | nil => rfl
  | cons c text ih =>
    obtain ⟨other, rest⟩ := List.ne_and_not_mem_of_not_mem_cons oneLine
    rw [skipGap_inLine, if_neg (Ne.symm other), ih _ rest]
    rfl

/-- A block comment goes up to the closing that belongs to it. -/
theorem skipGap_commentTail {cs : List Char} (tail : CommentTail cs) {depth : Nat}
    (counted : depth < maxCommentDepth) (ds : List Char) :
    Skips pos (depth + 1) (cs ++ ds) (skipGap pos (.inside start (depth + 1)) (cs ++ ds))
      (skipGap (pos.steps cs) (.inside start depth) ds) := by
  induction tail generalizing pos depth ds with
  | close => exact .inl (skipGap_close pos start counted ds)
  | @nested cs cs' _ _ inside rest =>
    by_cases full : depth + 1 = maxCommentDepth
    · rw [full]
      refine .inr ?_
      have deep := @TooDeep.intro pos maxCommentDepth [] (cs ++ cs' ++ ds) (Nat.le_add_right _ _)
      rwa [List.nil_append, Position.steps_nil, ← skipGap_full pos start] at deep
    -- the comment inside is closed first, then the one that it stands in
    have room : depth + 1 < maxCommentDepth := by omega
    have closed := (inside ((pos.step '(').step ';') room (cs' ++ ds)).trans
      (rest (((pos.step '(').step ';').steps cs) counted ds) (by omega)
    rw [← Position.steps_append, ← List.append_assoc] at closed
    have opened : Skips pos (depth + 1) (['(', ';'] ++ (cs ++ cs' ++ ds)) _ _ :=
      .inl (skipGap_nested pos start room (cs ++ cs' ++ ds))
    exact opened.trans closed (by simp only [List.length_cons]; omega)
  | @char c cs inert rest ih =>
    have skipped : Skips pos (depth + 1) ([c] ++ (cs ++ ds)) _ _ :=
      .inl (skipGap_of_inert pos start depth (inert.append rest.ne_nil ds))
    exact skipped.trans (ih (pos.step c) counted ds) (Nat.le_add_right _ _)

/-- A gap is skipped, whatever comes after it. -/
theorem skipGap_layout {cs : List Char} (layout : Layout cs) (ds : List Char) :
    Skips pos 0 (cs ++ ds) (skipGap pos .blank (cs ++ ds)) (skipGap (pos.steps cs) .blank ds) := by
  induction layout generalizing pos with
  | nil => exact .refl _
  | @blank c cs blank _ ih =>
    have skipped : Skips pos 0 ([c] ++ (cs ++ ds)) _ _ := .inl (skipGap_of_isBlank pos blank (cs ++ ds))
    exact skipped.trans (ih (pos.step c)) (Nat.zero_le _)
  | @line text cs oneLine _ ih =>
    have line : (text ++ ['\n']) ++ (cs ++ ds) = text ++ '\n' :: (cs ++ ds) := List.append_assoc _ _ _
    have skipped : Skips pos 0 (';' :: ';' :: (text ++ ['\n']) ++ (cs ++ ds)) _ _ :=
      .inl ((skipGap_openLine pos _).trans ((congrArg _ line).trans (skipGap_line _ oneLine (cs ++ ds))))
    have rest := skipped.trans (ih _) (Nat.zero_le _)
    rw [← Position.steps_append] at rest
    simpa using rest
  | @block cs cs' comment _ ih =>
    have opened : Skips pos 0 (['(', ';'] ++ (cs ++ (cs' ++ ds))) _ _ :=
      .inl (skipGap_openBlock pos (cs ++ (cs' ++ ds)))
    have closed := (skipGap_commentTail ((pos.step '(').step ';') pos comment (by decide : 0 < maxCommentDepth)
      (cs' ++ ds)).trans (ih _) (Nat.zero_le _)
    have rest := opened.trans closed (by simp only [List.length_cons]; omega)
    rw [← Position.steps_append, ← List.append_assoc cs cs' ds] at rest
    exact rest

/-- A layout that ends the source is skipped to its end, if its comments can be counted. -/
theorem skipGap_lastLayout {cs : List Char} (last : LastLayout cs) :
    Skips pos 0 cs (skipGap pos .blank cs) ⟨.ok (), ⟨pos.steps cs, []⟩⟩ := by
  cases last with
  | closed layout =>
    have skipped := skipGap_layout pos layout []
    rwa [List.append_nil, skipGap_of_noGap _ (show NoGap [] from trivial)] at skipped
  | @comment cs text layout oneLine =>
    have skipped := skipGap_layout pos layout (';' :: ';' :: text)
    rwa [skipGap_openLine, skipGap_lastLine _ oneLine, ← Position.steps_cons, ← Position.steps_cons,
      ← Position.steps_append] at skipped

end Steps

/-! ## Where skipping ends -/

/-- A block comment is closed, or the source ends in it. -/
theorem commentTail_or (cs : List Char) : (∃ tail rest, cs = tail ++ rest ∧ CommentTail tail) ∨
    ∀ pos start depth, depth < maxCommentDepth →
      Skips pos (depth + 1) cs (skipGap pos (.inside start (depth + 1)) cs)
        (.fail .unterminatedComment start ⟨pos.steps cs, []⟩) := by
  induction length : cs.length using Nat.strong_induction_on generalizing cs with
  | _ n ih =>
    subst length
    cases cs with
    | nil => exact .inr fun _ _ _ _ => .refl _
    | cons c cs =>
      rcases inert_or c cs with inert | ⟨ds, rfl, rfl⟩ | ⟨ds, rfl, rfl⟩
      · obtain ⟨tail, rest, rfl, closes⟩ | open_ := ih cs.length (Nat.lt_succ_self _) cs rfl
        · refine .inl ⟨c :: tail, rest, rfl, .char ?_ closes⟩
          obtain ⟨d, tail, rfl⟩ := List.exists_cons_of_ne_nil closes.ne_nil
          exact inert
        · refine .inr fun pos start depth counted => ?_
          have skipped : Skips pos (depth + 1) ([c] ++ cs) _ _ := .inl (skipGap_of_inert pos start depth inert)
          exact skipped.trans (open_ (pos.step c) start depth counted) (Nat.le_add_right _ _)
      · -- a comment in the comment: the rest is looked at once it is closed
        have opens (pos start : Position) (depth : Nat) (room : depth + 1 < maxCommentDepth) :
            Skips pos (depth + 1) (['(', ';'] ++ ds) _ _ := .inl (skipGap_nested pos start room ds)
        have full (pos start : Position) {depth : Nat} (full : depth + 1 = maxCommentDepth) (r : Lexed Unit) :
            Skips pos (depth + 1) ('(' :: ';' :: ds) (skipGap pos (.inside start (depth + 1)) ('(' :: ';' :: ds)) r := by
          rw [full, skipGap_full]
          exact .inr (@TooDeep.intro pos maxCommentDepth [] ds (Nat.le_add_right _ _))
        obtain ⟨inner, rest, rfl, closes⟩ | open_ := ih ds.length (by rw [List.length_cons, List.length_cons]; omega) ds rfl
        · obtain ⟨outer, rest, rfl, closes'⟩ | open_ := ih rest.length (by simp only [List.length_cons, List.length_append]; omega) rest rfl
          · refine .inl ⟨'(' :: ';' :: (inner ++ outer), rest, ?_, .nested closes closes'⟩
            rw [List.cons_append, List.cons_append, List.append_assoc]
          · refine .inr fun pos start depth counted => ?_
            by_cases isFull : depth + 1 = maxCommentDepth
            · exact full pos start isFull _
            have room : depth + 1 < maxCommentDepth := by omega
            have closed := (skipGap_commentTail ((pos.step '(').step ';') start closes room rest).trans
              (open_ _ start depth counted) (by omega)
            rw [← Position.steps_append] at closed
            exact (opens pos start depth room).trans closed (by simp only [List.length_cons]; omega)
        · refine .inr fun pos start depth counted => ?_
          by_cases isFull : depth + 1 = maxCommentDepth
          · exact full pos start isFull _
          have room : depth + 1 < maxCommentDepth := by omega
          exact (opens pos start depth room).trans (open_ _ start (depth + 1) room)
            (by simp only [List.length_cons]; omega)
      · exact .inl ⟨[';', ')'], ds, rfl, .close⟩

/-- A line ends, or the source ends in it. -/
theorem line_or (cs : List Char) : (∃ text rest, cs = text ++ '\n' :: rest ∧ '\n' ∉ text) ∨ '\n' ∉ cs := by
  by_cases inside : '\n' ∈ cs
  · obtain ⟨text, rest, split, oneLine⟩ := List.eq_append_cons_of_mem inside
    exact .inl ⟨text, rest, split, oneLine⟩
  · exact .inr inside

/-- How skipping a gap ends: where no gap goes on, in a line comment that the source ends, in a block
comment that it leaves open, or in more of them than can be counted. -/
inductive SkipsTo (pos : Position) : List Char → Lexed Unit → Prop
  | stops {gap rest : List Char} (layout : Layout gap) (noGap : NoGap rest) :
    SkipsTo pos (gap ++ rest) ⟨.ok (), ⟨pos.steps gap, rest⟩⟩
  | ends {cs : List Char} (last : LastLayout cs) : SkipsTo pos cs ⟨.ok (), ⟨pos.steps cs, []⟩⟩
  | fails {gap rest : List Char} (layout : Layout gap) :
    SkipsTo pos (gap ++ '(' :: rest) (.fail .unterminatedComment (pos.steps gap) ⟨pos.steps (gap ++ '(' :: rest), []⟩)
  | deep {cs : List Char} {r : Lexed Unit} (deep : TooDeep pos 0 cs r) : SkipsTo pos cs r

/-- A gap in front of what is skipped after it. -/
theorem SkipsTo.after {pos : Position} {gap cs : List Char} {r : Lexed Unit} (layout : Layout gap)
    (skips : SkipsTo (pos.steps gap) cs r) : SkipsTo pos (gap ++ cs) r := by
  cases skips with
  | stops layout' noGap =>
    rw [← List.append_assoc, ← Position.steps_append]
    exact .stops (layout.append layout') noGap
  | ends last =>
    rw [← Position.steps_append]
    exact .ends (last.after layout)
  | fails layout' =>
    rw [← List.append_assoc, ← Position.steps_append, ← Position.steps_append, ← List.append_assoc]
    exact .fails (layout.append layout')
  | deep deep => exact .deep (deep.after (Nat.zero_le _))

/-- Skipping stops where no gap goes on, or where a comment stays open. -/
theorem skipsTo (pos : Position) (cs : List Char) : SkipsTo pos cs (skipGap pos .blank cs) := by
  induction length : cs.length using Nat.strong_induction_on generalizing cs pos with
  | _ n ih =>
    subst length
    -- a piece of a gap is skipped, and then what comes after it
    have piece (gap rest : List Char) (layout : Layout gap) (some_ : gap ≠ []) (split : cs = gap ++ rest) :
        SkipsTo pos cs (skipGap pos .blank cs) := by
      rw [split]
      obtain same | deep := skipGap_layout pos layout rest
      · rw [same]
        refine (ih rest.length ?_ _ rest rfl).after layout
        rw [split, List.length_append]
        have := List.length_pos_iff.2 some_
        omega
      · exact .deep deep
    rcases noGap_or cs with noGap | ⟨c, rest, rfl, blank⟩ | ⟨rest, rfl⟩ | ⟨rest, rfl⟩
    · rw [skipGap_of_noGap pos noGap]
      exact SkipsTo.stops .nil noGap
    · exact piece [c] rest (.blank blank .nil) (List.cons_ne_nil _ _) rfl
    · obtain ⟨text, rest, rfl, oneLine⟩ | oneLine := line_or rest
      · exact piece (';' :: ';' :: (text ++ ['\n'])) rest (.line oneLine .nil) (List.cons_ne_nil _ _) (by simp)
      · have last : LastLayout (';' :: ';' :: rest) := LastLayout.comment .nil oneLine
        obtain same | deep := skipGap_lastLayout pos last
        · rw [same]
          exact .ends last
        · exact .deep deep
    · obtain ⟨tail, rest, rfl, closes⟩ | open_ := commentTail_or rest
      · exact piece ('(' :: ';' :: (tail ++ [])) rest (.block closes .nil) (List.cons_ne_nil _ _) (by simp)
      · have opened : Skips pos 0 (['(', ';'] ++ rest) _ _ := .inl (skipGap_openBlock pos rest)
        obtain same | deep := opened.trans (open_ _ pos 0 (by decide)) (by simp only [List.length_cons]; omega)
        · exact same ▸ SkipsTo.fails .nil
        · exact .deep deep

end WasmEngine.Wat
