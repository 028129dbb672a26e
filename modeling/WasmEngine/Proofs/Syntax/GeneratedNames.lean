import Mathlib.Data.List.Nodup
import WasmEngine.Syntax.NameGenerator

/-!
# Generated names

A generated name is a stem, an underscore and a number.  Its last underscore splits it, whatever the stem is, so that
names differ where stems or numbers do (`generated_inj`).  A generator counts beyond the numbers of all names that it
handed out, and hands out none of them again (`uniques_nodup`).
-/

namespace WasmEngine.NameGenerator

/-! ## Names and their parts -/

/-- What stands around the last place of an element is known. -/
theorem append_cons_inj_of_last {α : Type} {x : α} {xs xs' ys ys' : List α} (last : x ∉ ys) (last' : x ∉ ys')
    (same : xs ++ x :: ys = xs' ++ x :: ys') : xs = xs' ∧ ys = ys' := by
  obtain ⟨between, rfl, rest⟩ | ⟨between, rfl, rest⟩ := List.append_eq_append_iff.1 same
  · cases between with
    | nil => exact ⟨(List.append_nil xs).symm, (List.cons.inj rest).2⟩
    | cons y between =>
      obtain ⟨-, rfl⟩ := List.cons.inj rest
      exact absurd (List.mem_append_right between List.mem_cons_self) last
  · cases between with
    | nil => exact ⟨List.append_nil xs', (List.cons.inj rest).2.symm⟩
    | cons y between =>
      obtain ⟨-, rfl⟩ := List.cons.inj rest
      exact absurd (List.mem_append_right between List.mem_cons_self) last'

/-- A decimal numeral has no underscore. -/
theorem underscore_notMem (n : Nat) : '_' ∉ (toString n).toList := by
  rw [Nat.toString_eq_repr, Nat.toList_repr]
  intro inside
  exact absurd (Nat.isDigit_of_mem_toDigits (by decide) (by decide) inside) (by decide)

/-- Decimal numerals are told apart by their characters. -/
theorem toString_inj {m n : Nat} (same : (toString m).toList = (toString n).toList) : m = n := by
  simp only [Nat.toString_eq_repr, Nat.toList_repr] at same
  simpa using congrArg (fun digits => Nat.ofDigitChars 10 digits 0) same

/-- Equal names have equal stems and equal numbers. -/
theorem generated_inj {stem stem' : String} {m n : Nat}
    (same : stem ++ "_" ++ toString m = stem' ++ "_" ++ toString n) : stem = stem' ∧ m = n := by
  have letters : stem.toList ++ '_' :: (toString m).toList = stem'.toList ++ '_' :: (toString n).toList := by
    simpa using congrArg String.toList same
  obtain ⟨stems, digits⟩ := append_cons_inj_of_last (underscore_notMem m) (underscore_notMem n) letters
  exact ⟨String.toList_inj.1 stems, toString_inj digits⟩

/-! ## Counters -/

/-- A name for one stem leaves the counts of the others. -/
theorem count_unique_of_ne (g : NameGenerator) {stem other : String} (ne : other ≠ stem) :
    (g.unique stem).2.count other = g.count other := by
  have differ : (other == stem) = false := beq_eq_false_iff_ne.2 ne
  have kept (counters : List (String × Nat)) :
      (counters.filter (·.1 != stem)).lookup other = counters.lookup other := by
    induction counters with
    | nil => rfl
    | cons entry counters ih =>
      obtain ⟨name, n⟩ := entry
      by_cases same : name = stem
      · subst same
        simp [List.lookup_cons, ih, differ]
      · simp [List.lookup_cons, ih, same]
  simp [unique, count, List.lookup_cons, kept, differ]

/-- Counts never go down. -/
theorem count_le_unique (g : NameGenerator) (stem other : String) : g.count other ≤ (g.unique stem).2.count other := by
  by_cases same : other = stem
  · rw [same, count_unique_self]
    exact Nat.le_succ _
  · exact Nat.le_of_eq (count_unique_of_ne g same).symm

/-- A name that a generator hands out from now on has a number that its counter has not passed. -/
theorem exists_of_mem_uniques {g : NameGenerator} {stems : List String} {name : String}
    (listed : name ∈ g.uniques stems) : ∃ stem n, g.count stem ≤ n ∧ name = stem ++ "_" ++ toString n := by
  induction stems generalizing g with
  | nil => cases listed
  | cons stem stems ih =>
    rw [uniques, List.mem_cons] at listed
    obtain rfl | later := listed
    · exact ⟨stem, g.count stem, Nat.le_refl _, rfl⟩
    · obtain ⟨other, n, beyond, spelled⟩ := ih later
      exact ⟨other, n, Nat.le_trans (g.count_le_unique stem other) beyond, spelled⟩

/-- **One generator never repeats a name.**  It gives one name for each stem that is asked for, and these names are
pairwise different, whatever the stems are and however often each is asked for. -/
theorem uniques_nodup (g : NameGenerator) (stems : List String) :
    (g.uniques stems).length = stems.length ∧ (g.uniques stems).Nodup := by
  induction stems generalizing g with
  | nil => exact ⟨rfl, List.nodup_nil⟩
  | cons stem stems ih =>
    obtain ⟨length, distinct⟩ := ih (g.unique stem).2
    refine ⟨congrArg (· + 1) length, List.nodup_cons.2 ⟨fun again => ?_, distinct⟩⟩
    -- the counter of the stem has passed the number of the name by then
    obtain ⟨other, n, beyond, spelled⟩ := exists_of_mem_uniques again
    obtain ⟨rfl, rfl⟩ := generated_inj spelled
    rw [count_unique_self] at beyond
    exact Nat.not_succ_le_self _ beyond

/-- A stem that ends like a generated name is no danger. -/
example : empty.uniques ["x_1", "x", "x", "x_1"] = ["x_1_0", "x_0", "x_1", "x_1_1"] := by decide

end WasmEngine.NameGenerator
