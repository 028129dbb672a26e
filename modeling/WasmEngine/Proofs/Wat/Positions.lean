import Mathlib.Data.List.Induction
import Mathlib.Data.String.Basic
import WasmEngine.Wat.Span

/-!
# Positions and cursors that move on

A cursor moves past characters (`Cursor.Past`): they stand between it and where it goes on, and its position counts
them.  Up to an overflow the counts are the lines and columns of the text (`Position.steps_origin`), and a text needs
4 GiB for an overflow (`Position.length_of_overflow`).
-/

namespace WasmEngine.Wat

/-! ## Counting in 32 bits -/

/-- A counter wraps from the last number only. -/
theorem toNat_of_wraps {n : UInt32} (wraps : n + 1 = 0) : n.toNat = 2 ^ 32 - 1 := by
  have bound := n.toNat_lt
  have sum := UInt32.toNat_add n 1
  rw [wraps, show (1 : UInt32).toNat = 1 from rfl, show (0 : UInt32).toNat = 0 from rfl] at sum
  omega

/-- A counter that does not wrap counts up by one. -/
theorem toNat_add_one {n : UInt32} (room : n + 1 ≠ 0) : (n + 1).toNat = n.toNat + 1 := by
  have bound := n.toNat_lt
  have sum := UInt32.toNat_add n 1
  have some_ : (n + 1).toNat ≠ 0 := fun zero => room (UInt32.toNat_inj.1 zero)
  rw [show (1 : UInt32).toNat = 1 from rfl] at sum
  omega

/-- A counter behind another that does not wrap does not wrap, and stays behind it. -/
theorem succ_le_succ {m n : UInt32} (le : m ≤ n) (room : n + 1 ≠ 0) : m + 1 ≤ n + 1 ∧ m + 1 ≠ 0 := by
  have bound := (n + 1).toNat_lt
  have sum := toNat_add_one room
  have le' := UInt32.le_iff_toNat_le.1 le
  have room' : m + 1 ≠ 0 := fun wraps => by
    have := toNat_of_wraps wraps
    omega
  exact ⟨UInt32.le_iff_toNat_le.2 (by rw [sum, toNat_add_one room']; omega), room'⟩

/-! ## Positions -/

namespace Position

/-- A newline begins a line. -/
theorem step_of_newline (p : Position) :
    p.step '\n' = ⟨p.offset + '\n'.utf8Size, p.line + 1, 1, p.overflow || p.line + 1 == 0⟩ := if_pos rfl

/-- Every other character moves on by a column. -/
theorem step_of_ne {c : Char} (other : c ≠ '\n') (p : Position) :
    p.step c = ⟨p.offset + c.utf8Size, p.line, p.column + 1, p.overflow || p.column + 1 == 0⟩ := if_neg other

/-- What a step without an overflow counts. -/
theorem room_of_step {p : Position} {c : Char} (room : (p.step c).overflow = false) :
    p.overflow = false ∧ (c = '\n' → p.line + 1 ≠ 0) ∧ (c ≠ '\n' → p.column + 1 ≠ 0) := by
  by_cases newline : c = '\n'
  · subst newline
    rw [step_of_newline] at room
    obtain ⟨before, counted⟩ := Bool.or_eq_false_iff.1 room
    exact ⟨before, fun _ => beq_eq_false_iff_ne.1 counted, fun other => absurd rfl other⟩
  · rw [step_of_ne newline] at room
    obtain ⟨before, counted⟩ := Bool.or_eq_false_iff.1 room
    exact ⟨before, fun same => absurd same newline, fun _ => beq_eq_false_iff_ne.1 counted⟩

@[simp] theorem steps_nil (p : Position) : p.steps [] = p := rfl

@[simp] theorem steps_cons (p : Position) (c : Char) (cs : List Char) :
    p.steps (c :: cs) = (p.step c).steps cs := rfl

/-- Positions are counted along a text. -/
theorem steps_append (p : Position) (cs ds : List Char) : p.steps (cs ++ ds) = (p.steps cs).steps ds :=
  List.foldl_append

/-- An overflow stays with a position. -/
theorem room_of_steps {p : Position} {cs : List Char} (room : (p.steps cs).overflow = false) :
    p.overflow = false := by
  induction cs generalizing p with
  | nil => exact room
  | cons c cs ih => exact (room_of_step (ih room)).1

section Room

variable {p q : Position}

/-- A character that can be counted at one position can be counted at any that has counted no more. -/
theorem step_le (lines : p.line ≤ q.line) (columns : p.column ≤ q.column) (start : p.overflow = false) {c : Char}
    (room : (q.step c).overflow = false) :
    (p.step c).line ≤ (q.step c).line ∧ (p.step c).column ≤ (q.step c).column ∧ (p.step c).overflow = false := by
  obtain ⟨-, line, column⟩ := room_of_step room
  by_cases newline : c = '\n'
  · subst newline
    obtain ⟨lines', room'⟩ := succ_le_succ lines (line rfl)
    rw [step_of_newline, step_of_newline, start, beq_eq_false_iff_ne.2 room']
    exact ⟨lines', UInt32.le_refl 1, rfl⟩
  · obtain ⟨columns', room'⟩ := succ_le_succ columns (column newline)
    rw [step_of_ne newline, step_of_ne newline, start, beq_eq_false_iff_ne.2 room']
    exact ⟨lines, columns', rfl⟩

/-- A position that is behind another in line and column has room wherever the other does. -/
theorem room_of_le {cs : List Char} (lines : p.line ≤ q.line) (columns : p.column ≤ q.column)
    (start : p.overflow = false) (room : (q.steps cs).overflow = false) : (p.steps cs).overflow = false := by
  induction cs generalizing p q with
  | nil => exact start
  | cons c cs ih =>
    obtain ⟨lines', columns', start'⟩ := step_le lines columns start (@room_of_steps _ cs room)
    exact ih lines' columns' start' room

end Room

/-! Counts from the start of a text are by induction on its characters, the last one at a time. -/

/-- The offset moves on by the bytes of the characters. -/
theorem offset_steps (p : Position) (cs : List Char) :
    (p.steps cs).offset = p.offset + String.utf8Len cs := by
  induction cs generalizing p with
  | nil => rfl
  | cons c cs ih =>
    have step : (p.step c).offset = p.offset + c.utf8Size := by
      unfold step
      split <;> rfl
    rw [steps_cons, ih, step, String.utf8Len_cons]
    omega

/-- Characters have a byte at least. -/
theorem length_le_utf8Len (cs : List Char) : cs.length ≤ String.utf8Len cs := by
  induction cs with
  | nil => exact Nat.le_refl 0
  | cons c cs ih =>
    have := c.utf8Size_pos
    rw [List.length_cons, String.utf8Len_cons]
    omega

/-- Up to an overflow the line is one more than the ends of lines, and the column one more than the characters
after the last of these. -/
theorem steps_origin {cs : List Char} (room : (origin.steps cs).overflow = false) :
    (origin.steps cs).line.toNat = 1 + cs.count '\n' ∧
      (origin.steps cs).column.toNat = 1 + (cs.reverse.takeWhile (· ≠ '\n')).length := by
  induction cs using List.reverseRecOn with
  | nil => exact ⟨rfl, rfl⟩
  | append_singleton cs c ih =>
    rw [steps_append] at room ⊢
    obtain ⟨before, line, column⟩ := room_of_step room
    obtain ⟨lines, columns⟩ := ih before
    rw [List.count_append, List.reverse_append, List.reverse_singleton, List.singleton_append, steps_cons, steps_nil]
    by_cases newline : c = '\n'
    · subst newline
      rw [step_of_newline, toNat_add_one (line rfl), lines, List.takeWhile_cons_of_neg (by simp)]
      exact ⟨rfl, rfl⟩
    · rw [step_of_ne newline, toNat_add_one (column newline), columns,
        List.takeWhile_cons_of_pos (by simpa using newline), List.count_singleton, beq_eq_false_iff_ne.2 newline]
      exact ⟨lines, by rw [List.length_cons]; omega⟩

/-- Only a long text has more lines or columns than can be counted. -/
theorem length_of_overflow {cs : List Char} (overflow : (origin.steps cs).overflow = true) :
    2 ^ 32 - 1 ≤ cs.length := by
  induction cs using List.reverseRecOn with
  | nil => cases overflow
  | append_singleton cs c ih =>
    rw [steps_append, steps_cons, steps_nil] at overflow
    rw [List.length_append, List.length_singleton]
    cases before : (origin.steps cs).overflow with
    | true =>
      have := ih before
      omega
    | false =>
      obtain ⟨lines, columns⟩ := steps_origin before
      by_cases newline : c = '\n'
      · subst newline
        rw [step_of_newline, before] at overflow
        have fewer : cs.count '\n' ≤ cs.length := List.count_le_length
        have := toNat_of_wraps (beq_iff_eq.1 overflow)
        omega
      · rw [step_of_ne newline, before] at overflow
        have fewer : (cs.reverse.takeWhile (· ≠ '\n')).length ≤ cs.length := by
          rw [← @List.length_reverse _ cs]
          exact (List.takeWhile_sublist _).length_le
        have := toNat_of_wraps (beq_iff_eq.1 overflow)
        omega

end Position

/-! ## Cursors -/

namespace Cursor

/-- A cursor that moved past some characters. -/
structure Past (c : Cursor) (cs : List Char) (c' : Cursor) : Prop where
  rest_eq : c.rest = cs ++ c'.rest
  pos_eq : c'.pos = c.pos.steps cs

/-- A cursor that moved on or stayed. -/
def Reaches (c c' : Cursor) : Prop := ∃ cs, c.Past cs c'

section Past

variable {c c' c'' : Cursor} {cs ds : List Char}

theorem Past.refl (c : Cursor) : c.Past [] c := ⟨rfl, rfl⟩

theorem Past.trans (first : c.Past cs c') (second : c'.Past ds c'') : c.Past (cs ++ ds) c'' where
  rest_eq := by rw [first.rest_eq, second.rest_eq, List.append_assoc]
  pos_eq := by rw [second.pos_eq, first.pos_eq, Position.steps_append]

/-- Past characters, a cursor is where they are counted to. -/
theorem Past.eq (past : c.Past cs c') : c' = ⟨c.pos.steps cs, c'.rest⟩ := by
  obtain ⟨pos, rest⟩ := c'
  obtain rfl : pos = c.pos.steps cs := past.pos_eq
  rfl

/-- A cursor gets past the characters in front of it. -/
theorem past_append (pos : Position) (cs rest : List Char) : Past ⟨pos, cs ++ rest⟩ cs ⟨pos.steps cs, rest⟩ :=
  ⟨rfl, rfl⟩

/-- Advancing gets past as many characters. -/
theorem past_advance (c : Cursor) (n : Nat) : c.Past (c.rest.take n) (c.advance n) :=
  ⟨(List.take_append_drop n c.rest).symm, rfl⟩

/-- Taking a run gets past it. -/
theorem past_afterRun (c : Cursor) (p : Char → Bool) : c.Past (c.run p) (c.afterRun p) :=
  ⟨List.takeWhile_append_dropWhile.symm, rfl⟩

theorem Past.reaches (past : c.Past cs c') : c.Reaches c' := ⟨cs, past⟩

theorem Reaches.refl (c : Cursor) : c.Reaches c := ⟨[], .refl c⟩

theorem Reaches.trans (first : c.Reaches c') (second : c'.Reaches c'') : c.Reaches c'' :=
  let ⟨_, past⟩ := first
  let ⟨_, past'⟩ := second
  ⟨_, past.trans past'⟩

theorem reaches_advance (c : Cursor) (n : Nat) : c.Reaches (c.advance n) := (past_advance c n).reaches

/-- A cursor that reaches one with room has room. -/
theorem Reaches.room (reaches : c.Reaches c') (room : c'.pos.overflow = false) : c.pos.overflow = false := by
  obtain ⟨cs, past⟩ := reaches
  rw [past.pos_eq] at room
  exact Position.room_of_steps room

end Past

end Cursor

end WasmEngine.Wat
