import WasmEngine.Binary.Sections
import WasmEngine.Proofs.Binary.Spelling

/-!
# Runs of locals

Locals are written as runs of one type.  Runs that were read may be empty or follow one of the same
type; the ones that are written put those together, and are neither more nor longer.
-/

namespace WasmEngine.Binary

namespace Encode

/-- A run of locals. -/
def runBytes (run : Nat × Valtype) : List UInt8 := u32 run.1 ++ [valtypeByte run.2]

/-- The locals of some runs. -/
def expand (rs : List (Nat × Valtype)) : List Valtype := rs.flatMap fun r => .replicate r.1 r.2

/-- One more local extends the first run or begins another. -/
theorem runs_cons (t : Valtype) (ts : List Valtype) : runs (t :: ts) =
    match runs ts with
    | (count, t') :: rest => if t = t' then (count + 1, t) :: rest else (1, t) :: (count, t') :: rest
    | [] => [(1, t)] := rfl

/-- Written runs give the locals that they came from. -/
theorem expand_runs (ts : List Valtype) : expand (runs ts) = ts := by
  induction ts with
  | nil => rfl
  | cons t ts ih =>
    rw [runs_cons]
    cases known : runs ts with
    | nil =>
      rw [known] at ih
      rw [← ih]
      rfl
    | cons run rest =>
      obtain ⟨count, t'⟩ := run
      rw [known] at ih
      by_cases same : t = t'
      · subst same
        simp only [if_true]
        rw [← ih]
        rfl
      · simp only [if_neg same]
        rw [← ih]
        rfl

/-- A run before other locals makes a new run or a longer one. -/
theorem runs_replicate_append (count : Nat) (t : Valtype) (ts : List Valtype) :
    runs (.replicate (count + 1) t ++ ts) = (count + 1, t) :: runs ts ∨
      ∃ more rest, runs ts = (more, t) :: rest ∧
        runs (.replicate (count + 1) t ++ ts) = (count + 1 + more, t) :: rest := by
  induction count with
  | zero =>
    rw [show List.replicate (0 + 1) t ++ ts = t :: ts from rfl, runs_cons]
    cases known : runs ts with
    | nil => exact .inl rfl
    | cons run rest =>
      obtain ⟨more, t'⟩ := run
      by_cases same : t = t'
      · subst same
        refine .inr ⟨more, rest, rfl, ?_⟩
        simp only [if_true, Nat.zero_add, Nat.add_comm]
      · left
        simp only [if_neg same]
  | succ count ih =>
    rw [List.replicate_succ, List.cons_append, runs_cons]
    obtain ih | ⟨more, rest, known, ih⟩ := ih
    · left
      rw [ih]
      simp only [if_true]
    · refine .inr ⟨more, rest, known, ?_⟩
      rw [ih]
      simp only [if_true]
      congr 2
      omega

/-- Runs are as long together as the locals that they stand for. -/
theorem length_expand (rs : List (Nat × Valtype)) : (expand rs).length = (rs.map Prod.fst).sum := by
  simp [expand, List.length_flatMap]

end Encode

namespace Decode

open Encode (runBytes expand runs)

variable {types : List Signature}

/-- Runs that were read are written in no more runs and bytes. -/
theorem runs_sized {count n k l : Nat} {t : Valtype} {ts : List Valtype}
    (few : count + ts.length ≤ maxLocals) (sized : Sized count n)
    (others : (runs ts).length ≤ k ∧ ((runs ts).flatMap runBytes).length ≤ l) :
    (runs (.replicate count t ++ ts)).length ≤ k + 1 ∧
      ((runs (.replicate count t ++ ts)).flatMap runBytes).length ≤ n + 1 + l := by
  obtain ⟨fits, size⟩ := sized
  cases count with
  | zero =>
    rw [List.replicate_zero, List.nil_append]
    omega
  | succ count =>
    obtain same | ⟨more, rest, known, same⟩ := Encode.runs_replicate_append count t ts
    · rw [same]
      simp only [List.flatMap_cons, List.length_cons, List.length_append, runBytes,
        List.length_nil]
      omega
    · have total : (expand (runs ts)).length = more + (rest.map Prod.fst).sum := by
        rw [known, Encode.length_expand]
        rfl
      rw [Encode.expand_runs] at total
      have most : maxLocals < UInt32.size := by decide
      have longer := Leb128.length_encodeUnsigned_add (count + 1) more
      rw [u32_eq fits] at size
      simp only [known, List.flatMap_cons, List.length_cons, List.length_append, runBytes,
        List.length_nil] at others
      rw [u32_eq (by omega)] at others
      rw [same]
      simp only [List.flatMap_cons, List.length_cons, List.length_append, runBytes,
        List.length_nil]
      rw [u32_eq (by omega)]
      simp only [Write.unsigned] at *
      omega

/-- The runs that are read stay within the limit and are spelled in no more bytes, since equal neighbours are
put together. -/
theorem takes_localRuns (total k : Nat) (few : total ≤ maxLocals) :
    Takes types (fun ts n => total + ts.length ≤ maxLocals ∧ (runs ts).length ≤ k ∧
      ((runs ts).flatMap runBytes).length ≤ n) (localRuns total k) := by
  induction k generalizing total with
  | zero => exact takes_pure ⟨few, Nat.le_refl 0, Nat.le_refl 0⟩
  | succ k ih =>
    refine takes_u32.bind fun count n sized => ?_
    by_cases many : maxLocals < total + count
    · simp only [if_pos many]
      exact (takes_read (P := fun _ _ => False) Read.gives_fail).bind fun _ _ impossible =>
        impossible.elim
    · simp only [if_neg many]
      refine takes_valtype.bind fun t one ⟨_, size⟩ =>
        (ih (total + count) (by omega)).bind fun ts l ⟨few', others⟩ => takes_pure ?_
      have fewer := runs_sized (t := t) (by omega) sized others
      refine ⟨by rw [List.length_append, List.length_replicate]; omega, fewer.1, ?_⟩
      have := fewer.2
      rw [List.length_singleton] at size
      omega

theorem rereads_localRuns (rs : List (Nat × Valtype)) (total : Nat)
    (few : total + (rs.map Prod.fst).sum ≤ maxLocals) :
    Rereads types (rs.flatMap runBytes) (localRuns total rs.length) (· = expand rs) := by
  induction rs generalizing total with
  | nil => exact rereads_pure rfl
  | cons run rs ih =>
    obtain ⟨count, t⟩ := run
    rw [List.map_cons, List.sum_cons] at few
    have most : maxLocals < UInt32.size := by decide
    have notMany : ¬ maxLocals < total + count := by omega
    rw [List.flatMap_cons, runBytes, List.append_assoc]
    refine (rereads_u32 (by omega)).then ?_
    simp only [if_neg notMany]
    exact (rereads_valtype t).then ((ih (total + count) (by omega)).map fun _ same => same ▸ rfl)

/-- The locals of a function after the number of their runs. -/
def locals : DecodeM (List Valtype) := do localRuns 0 (← read .u32)

/-- The locals of a function as they are written. -/
def localsBytes (ts : List Valtype) : List UInt8 := Encode.vector runBytes (runs ts)

/-- The locals of a body are spelled in no more bytes than were read. -/
theorem takes_locals : Takes types (fun ts n => ts.length ≤ maxLocals ∧
    (runs ts).length < UInt32.size ∧ (localsBytes ts).length ≤ n) locals := by
  refine takes_u32.bind fun k n ⟨fits, size⟩ =>
    (takes_localRuns 0 k (Nat.zero_le _)).mono fun ts l ⟨few, fewer, size'⟩ => ?_
  have fits' : (runs ts).length < UInt32.size := Nat.lt_of_le_of_lt fewer fits
  have shorter := Leb128.length_encodeUnsigned_mono fewer
  rw [u32_eq fits] at size
  refine ⟨by omega, fits', ?_⟩
  rw [localsBytes, Encode.vector, List.length_append, u32_eq fits']
  simp only [Write.unsigned] at *
  omega

theorem rereads_locals {ts : List Valtype} (few : ts.length ≤ maxLocals)
    (fits : (runs ts).length < UInt32.size) :
    Rereads types (localsBytes ts) locals (· = ts) := by
  have total : ((runs ts).map Prod.fst).sum = ts.length := by
    rw [← Encode.length_expand, Encode.expand_runs]
  have again : Rereads types _ _ _ := rereads_localRuns (runs ts) 0 (by omega)
  rw [Encode.expand_runs] at again
  exact (rereads_u32 fits).then again

end Decode

end WasmEngine.Binary
