import Mathlib.Data.List.Induction
import WasmEngine.Typing.Context

/-!
# What an operand stack stands for

An operand stack of the checker stands for the lists of types that it may turn out to be: an unknown
operand may have any type, and anything may lie below an unreachable stack.  Every operation of the
checker is exact for this reading: it succeeds if and only if one of the lists that the stack stands
for allows it.
-/

namespace WasmEngine

namespace OperandType

@[simp] theorem val_fits_val (s t : Valtype) : (val s).fits (val t) = true ↔ s = t := by simp [fits]

@[simp] theorem any_fits (t : OperandType) : any.fits t = true := by cases t <;> rfl

@[simp] theorem fits_any (t : OperandType) : t.fits any = true := by cases t <;> rfl

theorem fits_comm (s t : OperandType) : s.fits t = t.fits s := by
  cases s <;> cases t <;> simp [fits, eq_comm]

/-- An operand that may have a known type fits every operand that may have the same one. -/
theorem fits_of_fits_val {s u : OperandType} {t : Valtype} (hs : s.fits (val t))
    (hu : u.fits (val t)) :
    s.fits u := by
  cases s <;> cases u <;> simp_all

end OperandType

namespace OperandStack

open OperandType

/-- Whether the operands of a list, the top first, may have these types; below them there is
nothing, or anything if the stack is not `reachable`. -/
def Covers (reachable : Bool) : List OperandType → List Valtype → Prop
  | [], ts => reachable = true → ts = []
  | _ :: _, [] => False
  | item :: items, t :: ts => item.fits (val t) ∧ Covers reachable items ts

/-- Whether a stack may hold operands of these types, the last one on top. -/
def StandsFor (s : OperandStack) (ts : List Valtype) : Prop := Covers s.reachable s.items ts.reverse

@[simp] theorem empty_standsFor (ts : List Valtype) : empty.StandsFor ts ↔ ts = [] := by
  simp [StandsFor, empty, Covers]

@[simp] theorem unreachable_standsFor (ts : List Valtype) : unreachable.StandsFor ts := by
  simp [StandsFor, unreachable, Covers]

/-- Every stack stands for some operands. -/
theorem exists_standsFor (s : OperandStack) : ∃ ts, s.StandsFor ts := by
  have covered : ∀ items, ∃ ts, Covers s.reachable items ts := by
    intro items
    induction items with
    | nil => exact ⟨[], fun _ => rfl⟩
    | cons item items ih =>
      obtain ⟨ts, h⟩ := ih
      cases item with
      | any => exact ⟨.i32 :: ts, rfl, h⟩
      | val t => exact ⟨t :: ts, by simp, h⟩
  obtain ⟨ts, h⟩ := covered s.items
  exact ⟨ts.reverse, by simpa [StandsFor] using h⟩

/-- A stack stands for no operands at all if and only if nothing known lies on it. -/
theorem standsFor_nil (s : OperandStack) : s.StandsFor [] ↔ s.items = [] := by
  rcases s with ⟨items, reachable⟩
  cases items <;> simp [StandsFor, Covers]

/-- One more operand stands for one more type. -/
@[simp] theorem push_standsFor (s : OperandStack) (item : OperandType) (vs : List Valtype) :
    (s.push item).StandsFor vs ↔ ∃ ts t, vs = ts ++ [t] ∧ item.fits (val t) ∧ s.StandsFor ts := by
  constructor
  · intro h
    cases e : vs.reverse with
    | nil => simp [StandsFor, push, e, Covers] at h
    | cons t ts =>
      simp only [StandsFor, push, e, Covers] at h
      refine ⟨ts.reverse, t, ?_, h.1, by simpa [StandsFor] using h.2⟩
      rw [← List.reverse_reverse vs, e, List.reverse_cons]
  · rintro ⟨ts, t, rfl, fits, h⟩
    simpa [StandsFor, push, Covers] using ⟨fits, h⟩

theorem pushAll_nil (s : OperandStack) : s.pushAll [] = s := rfl

theorem pushAll_concat (s : OperandStack) (ts : List Valtype) (t : Valtype) :
    s.pushAll (ts ++ [t]) = (s.pushAll ts).push (val t) := by
  simp [pushAll, push]

/-- More operands stand for more types. -/
@[simp] theorem pushAll_standsFor (s : OperandStack) (us vs : List Valtype) :
    (s.pushAll us).StandsFor vs ↔ ∃ ts, vs = ts ++ us ∧ s.StandsFor ts := by
  induction us using List.reverseRecOn generalizing vs with
  | nil => simp [pushAll_nil]
  | append_singleton us u ih =>
    simp only [pushAll_concat, push_standsFor, ih, val_fits_val]
    constructor
    · rintro ⟨_, _, rfl, rfl, ts, rfl, h⟩
      exact ⟨ts, by simp, h⟩
    · rintro ⟨ts, rfl, h⟩
      exact ⟨ts ++ us, u, by simp, rfl, ts, rfl, h⟩

/-- What was taken off a stack may have a type, and what is left may be `ts`: then the stack may be
`ts` with that type on top. -/
theorem standsFor_of_pop {s s' : OperandStack} {expected found : OperandType} {ts : List Valtype}
    {t : Valtype} (taken : s.pop expected = .ok (found, s')) (fits : found.fits (val t))
    (rest : s'.StandsFor ts) : s.StandsFor (ts ++ [t]) := by
  rcases s with ⟨items, reachable⟩
  cases items with
  | nil =>
    cases reachable with
    | true => simp [pop] at taken
    | false => simp [StandsFor, Covers]
  | cons item items =>
    simp only [pop] at taken
    split at taken
    · obtain ⟨rfl, rfl⟩ := Prod.mk.inj (Except.ok.inj taken)
      simpa [StandsFor, Covers] using ⟨fits, rest⟩
    · exact absurd taken (by simp)

/-- What was taken off a stack is what was expected, or unknown. -/
theorem fits_of_pop {s s' : OperandStack} {expected found : OperandType}
    (taken : s.pop expected = .ok (found, s')) : expected.fits found := by
  rcases s with ⟨items, reachable⟩
  cases items with
  | nil =>
    cases reachable with
    | true => simp [pop] at taken
    | false =>
      simp only [pop] at taken
      obtain ⟨rfl, rfl⟩ := Prod.mk.inj (Except.ok.inj taken)
      exact fits_any expected
  | cons item items =>
    simp only [pop] at taken
    split at taken
    · next h =>
      obtain ⟨rfl, rfl⟩ := Prod.mk.inj (Except.ok.inj taken)
      exact h
    · exact absurd taken (by simp)

/-- An operand of a type that a stack may have on top can be taken off it. -/
theorem exists_pop {s : OperandStack} {ts : List Valtype} {t : Valtype} {expected : OperandType}
    (h : s.StandsFor (ts ++ [t])) (fits : expected.fits (val t)) :
    ∃ found s', s.pop expected = .ok (found, s') ∧ found.fits (val t) ∧ s'.StandsFor ts := by
  rcases s with ⟨items, reachable⟩
  cases items with
  | nil =>
    cases reachable with
    | true => simp [StandsFor, Covers] at h
    | false => exact ⟨any, ⟨[], false⟩, rfl, rfl, by simp [StandsFor, Covers]⟩
  | cons item items =>
    have parts : item.fits (val t) ∧ Covers reachable items ts.reverse := by
      simpa [StandsFor, Covers] using h
    refine ⟨item, ⟨items, reachable⟩, ?_, parts.1, parts.2⟩
    simp only [pop, if_pos (fits_of_fits_val fits parts.1)]

/-- An operand that was popped stood for its type. -/
theorem standsFor_of_pop_val {s s' : OperandStack} {found : OperandType} {ts : List Valtype}
    {t : Valtype} (taken : s.pop (val t) = .ok (found, s')) (rest : s'.StandsFor ts) :
    s.StandsFor (ts ++ [t]) :=
  standsFor_of_pop taken (fits_comm _ _ ▸ fits_of_pop taken) rest

/-- Operands that were popped stood for their types. -/
theorem standsFor_of_popEach {s s' : OperandStack} {ts us : List Valtype}
    (taken : s.popEach us = .ok s') (rest : s'.StandsFor ts) : s.StandsFor (ts ++ us.reverse) := by
  induction us generalizing s with
  | nil =>
    cases taken
    simpa using rest
  | cons u us ih =>
    simp only [popEach] at taken
    split at taken
    · next first => simpa using standsFor_of_pop_val first (ih taken)
    · exact absurd taken (by simp)

/-- Operands can be popped from every stack that stands for them. -/
theorem exists_popEach {s : OperandStack} {ts us : List Valtype}
    (h : s.StandsFor (ts ++ us.reverse)) : ∃ s', s.popEach us = .ok s' ∧ s'.StandsFor ts := by
  induction us generalizing s with
  | nil => exact ⟨s, rfl, by simpa using h⟩
  | cons u us ih =>
    have top : s.StandsFor (ts ++ us.reverse ++ [u]) := by simpa using h
    obtain ⟨found, mid, taken, -, rest⟩ := exists_pop top ((val_fits_val u u).2 rfl)
    obtain ⟨s', taken', rest'⟩ := ih rest
    exact ⟨s', by simp only [popEach, taken, taken'], rest'⟩

/-- Operands that were taken off a stack may be put back under any reading of the rest. -/
theorem standsFor_of_popAll {s s' : OperandStack} {ts us : List Valtype}
    (taken : s.popAll us = .ok s') (rest : s'.StandsFor ts) : s.StandsFor (ts ++ us) := by
  simpa using standsFor_of_popEach taken rest

/-- Operands that a stack may have on top can be taken off it. -/
theorem exists_popAll {s : OperandStack} {ts us : List Valtype} (h : s.StandsFor (ts ++ us)) :
    ∃ s', s.popAll us = .ok s' ∧ s'.StandsFor ts := by
  rw [← List.reverse_reverse us] at h
  exact exists_popEach h

/-- A stack passes as the operands of a list, no more and no less, if and only if it may be
these. -/
theorem expectExactly_eq_ok_iff {s : OperandStack} {ts : List Valtype} :
    s.expectExactly ts = .ok () ↔ s.StandsFor ts := by
  constructor
  · intro h
    unfold expectExactly at h
    split at h
    · next taken =>
      split at h
      · next nothing =>
        have rest := (standsFor_nil _).2 (List.isEmpty_iff.1 nothing)
        simpa using standsFor_of_popAll taken rest
      · exact absurd h (by simp)
    · exact absurd h (by simp)
  · intro h
    have onNothing : s.StandsFor ([] ++ ts) := h
    obtain ⟨s', taken, rest⟩ := exists_popAll onNothing
    simp [expectExactly, taken, (standsFor_nil s').1 rest]

end OperandStack

end WasmEngine
