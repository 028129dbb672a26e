import WasmEngine.Binary.Instructions
import WasmEngine.Proofs.Bytes.Reader
import WasmEngine.Proofs.Outcome
import WasmEngine.Proofs.Syntax.GeneratedNames

/-!
# Steps that only read

Most steps of decoding move on in the input, take names and report, and change nothing else of what
was read so far.  Instructions are read by such steps.
-/

namespace WasmEngine.Binary.Decode

open Outcome

variable {α β : Type}

/-- A decoder that moved on by some bytes, took names of labels or reported. -/
def OnlyReads (n : Nat) (d d' : Decoder) : Prop :=
  n ≤ d.reader.remaining ∧ ∃ names trace,
    d' = { d with reader := d.reader.advance n, names := names, trace := trace } ∧
      names.count "func" = d.names.count "func" ∧ names.count "table" = d.names.count "table"

theorem advance_zero (r : Reader) : r.advance 0 = r := rfl

theorem advance_advance (r : Reader) (n k : Nat) : (r.advance n).advance k = r.advance (n + k) := by
  simp only [Reader.advance, List.drop_drop, Nat.add_assoc]

theorem OnlyReads.refl (d : Decoder) : OnlyReads 0 d d := ⟨Nat.zero_le _, _, _, rfl, rfl, rfl⟩

/-- Reads in a row are a read of all their bytes. -/
theorem OnlyReads.trans {n k : Nat} {d d' d'' : Decoder} (first : OnlyReads n d d')
    (second : OnlyReads k d' d'') : OnlyReads (n + k) d d'' := by
  obtain ⟨within, _, _, rfl, funcs, tables⟩ := first
  obtain ⟨within', names, trace, rfl, funcs', tables'⟩ := second
  refine ⟨?_, names, trace, ?_, funcs'.trans funcs, tables'.trans tables⟩
  · simp only [Reader.remaining, Reader.advance, List.length_drop] at *
    omega
  · rw [advance_advance]

/-- A step that only reads. -/
def Reading (m : DecodeM α) : Prop := ∀ d a d', m d = .ok a d' → ∃ n, OnlyReads n d d'

/-- Two computations that only read, in a row. -/
theorem Reading.bind {m : DecodeM α} {f : α → DecodeM β} (first : Reading m)
    (rest : ∀ a, Reading (f a)) : Reading (m >>= f) := by
  intro d b d' ends
  obtain ⟨a, e, here, there⟩ := run_bind_eq_ok_iff.1 ends
  obtain ⟨n, now⟩ := first d a e here
  obtain ⟨k, later⟩ := rest a e b d' there
  exact ⟨n + k, now.trans later⟩

theorem reading_pure (a : α) : Reading (pure a : DecodeM α) := by
  intro d b d' ends
  obtain ⟨-, rfl⟩ := run_pure_eq_ok_iff.1 ends
  exact ⟨0, .refl d⟩

theorem reading_get : Reading (MonadStateOf.get : DecodeM Decoder) := by
  intro d e d' ends
  cases ends
  exact ⟨0, .refl d⟩

theorem reading_read {P : α → Nat → Prop} {r : Read α} (gives : Read.Gives P r) :
    Reading (read r) := by
  intro d a d' ends
  unfold read at ends
  cases step : r d.reader with
  | ok b reader =>
    simp only [step] at ends
    cases ends
    obtain ⟨n, within, rfl, -⟩ := gives _ _ _ step
    exact ⟨n, within, d.names, d.trace, rfl, rfl, rfl⟩
  | error e reader =>
    simp only [step] at ends
    cases ends

theorem reading_fail (kind : DecodeErrorKind) : Reading (read (.fail kind) : DecodeM α) := by
  intro d a d' ends
  cases ends

theorem reading_u32 : Reading (read .u32) := reading_read Read.gives_u32

theorem reading_byte : Reading (read .byte) := reading_read Read.gives_byte

theorem reading_failAt (offset : Nat) (kind : DecodeErrorKind) :
    Reading (failAt offset kind : DecodeM α) := by
  intro d a d' ends
  cases ends

theorem reading_pos : Reading pos := reading_get.bind fun _ => reading_pure _

theorem reading_note (what : String) : Reading (note what) := by
  intro d a d' ends
  cases ends
  dsimp only
  split
  · exact ⟨0, Nat.zero_le _, d.names, _, rfl, rfl, rfl⟩
  · exact ⟨0, .refl d⟩

/-- Taking the name of a label. -/
theorem reading_fresh {stem : String} (func : stem ≠ "func") (table : stem ≠ "table") :
    Reading (fresh stem) := by
  intro d a d' ends
  cases ends
  exact ⟨0, Nat.zero_le _, _, d.trace, rfl, NameGenerator.count_unique_of_ne _ func.symm,
    NameGenerator.count_unique_of_ne _ table.symm⟩

theorem reading_times {step : DecodeM α} (reading : Reading step) (n : Nat) :
    Reading (times step n) := by
  induction n with
  | zero => exact reading_pure []
  | succ n ih => exact reading.bind fun a => ih.bind fun as => reading_pure _

theorem reading_skipTo (stop : Nat) : Reading (skipTo stop) :=
  reading_pos.bind fun _ => reading_read (Read.gives_skip _)

theorem reading_expectPosition (stop : Nat) (what : String) :
    Reading (expectPosition stop what) := by
  refine reading_pos.bind fun here => ?_
  split
  · exact reading_failAt _ _
  · exact reading_pure ()

theorem reading_valtype : Reading valtype := by
  refine reading_pos.bind fun start => reading_byte.bind fun byte => ?_
  split
  · exact reading_pure _
  · exact reading_failAt _ _

theorem reading_valtypes : Reading valtypes :=
  reading_u32.bind fun count => reading_times reading_valtype count

theorem reading_typeIndex : Reading typeIndex := by
  refine reading_pos.bind fun start => reading_u32.bind fun index =>
    (reading_note _).bind fun _ => reading_get.bind fun d => ?_
  split
  · exact reading_pure _
  · exact reading_failAt _ _

theorem reading_limits : Reading limits := by
  refine reading_pos.bind fun start => reading_byte.bind fun flag => ?_
  split
  · exact reading_u32.bind fun min => reading_pure _
  · split
    · exact reading_u32.bind fun min => reading_u32.bind fun max => reading_pure _
    · exact reading_failAt _ _

theorem reading_globalType : Reading globalType := by
  refine reading_valtype.bind fun type => reading_pos.bind fun start =>
    reading_byte.bind fun flag => ?_
  split
  · exact reading_pure _
  · exact reading_failAt _ _

theorem reading_blockType : Reading blockType := by
  refine reading_pos.bind fun start => reading_byte.bind fun byte => ?_
  split
  · exact reading_pure _
  · split
    · exact reading_pure _
    · exact reading_failAt _ _

theorem reading_zeroFlag : Reading zeroFlag := by
  refine reading_pos.bind fun start => reading_u32.bind fun flag => ?_
  split
  · exact reading_failAt _ _
  · exact reading_pure ()

theorem reading_label {stem : String} (func : stem ≠ "func") (table : stem ≠ "table") :
    Reading (label stem) := (reading_fresh func table).bind fun _ => reading_pure _

theorem reading_simple (op : Opcode) : Reading (simple op) := by
  unfold simple
  split
  · exact reading_pure _
  · exact reading_pure _
  · refine reading_u32.bind fun index => ?_
    split
    · exact reading_pure _
    · exact reading_pure _
  · exact reading_u32.bind fun count =>
      (reading_times reading_u32 _).bind fun labels => reading_pure _
  · refine reading_pos.bind fun start => reading_u32.bind fun index =>
      reading_get.bind fun d => ?_
    split
    · exact reading_failAt _ _
    · exact reading_zeroFlag.bind fun _ => reading_pure _
  · exact reading_u32.bind fun align => reading_u32.bind fun offset => reading_pure _
  · exact reading_zeroFlag.bind fun _ => reading_pure _
  · exact (reading_read Read.gives_i32).bind fun value => reading_pure _
  · exact (reading_read Read.gives_i64).bind fun value => reading_pure _
  · exact (reading_read (Read.gives_word _)).bind fun bits => reading_pure _
  · exact (reading_read (Read.gives_word _)).bind fun bits => reading_pure _

theorem reading_requireFinish (t : Terminator) : Reading (requireFinish t) := by
  unfold requireFinish
  split
  · exact reading_pos.bind fun _ => reading_failAt _ _
  · exact reading_pure ()

/-! ## Sequences -/

/-- Instructions that have to be closed by `end`. -/
def closed (fuel depth : Nat) : DecodeM (List Node) := do
  let (body, terminator) ← instructions fuel depth
  requireFinish terminator
  pure body

/-- What follows the first part of a conditional. -/
def alternative (fuel depth : Nat) (terminator : Terminator) : DecodeM (List Node) :=
  if terminator = .alternative then closed fuel (depth + 1) else pure []

/-- A conditional after its type. -/
def conditional (fuel depth : Nat) (result : Option Valtype) : DecodeM Node := do
  let label ← label "if"
  let (consequent, terminator) ← instructions fuel (depth + 1)
  let alternate ← alternative fuel depth terminator
  pure (.ifElse label result consequent alternate)

/-- A block or loop after its type. -/
def enclosed (fuel depth : Nat) (byte : UInt8) (result : Option Valtype) : DecodeM Node := do
  let body ← closed fuel (depth + 1)
  if byte = loopByte then pure (.loop (← label "loop") result body)
  else pure (.block (← label "block") body result)

/-- A block of any kind after its byte, which was at `start`. -/
def structured (fuel depth start : Nat) (byte : UInt8) : DecodeM Node := do
  if maxNesting ≤ depth then failAt start (.nestingTooDeep maxNesting)
  let result ← blockType
  if byte = ifByte then conditional fuel depth result else enclosed fuel depth byte result

/-- An instruction after its byte, which was at `start`. -/
def instruction (fuel depth start : Nat) (byte : UInt8) (op : Opcode) : DecodeM Node :=
  if op.immediate = .block then structured fuel depth start byte else simple op

/-- A sequence is an instruction and a shorter sequence, unless it ends at once. -/
theorem instructions_succ (fuel depth : Nat) :
    instructions (fuel + 1) depth = (do
      let start ← pos
      let byte ← read .byte
      match Opcode.ofByte? byte with
      | none => failAt start (.unexpectedInstruction byte.toNat)
      | some op =>
        note op.mnemonic
        if byte = endByte then pure ([], .finish)
        else if byte = elseByte then pure ([], .alternative)
        else do
          let node ← instruction fuel depth start byte op
          let (rest, terminator) ← instructions fuel depth
          pure (node :: rest, terminator)) := by
  rw [instructions]
  refine bind_congr fun start => bind_congr fun byte => ?_
  cases Opcode.ofByte? byte with
  | none => rfl
  | some op =>
    refine bind_congr fun _ => ?_
    by_cases isEnd : byte = endByte
    · simp only [if_pos isEnd]
    by_cases isElse : byte = elseByte
    · simp only [if_neg isEnd, if_pos isElse]
    simp only [if_neg isEnd, if_neg isElse, instruction]
    by_cases isBlock : op.immediate = .block
    · simp only [if_pos isBlock, structured]
      by_cases nested : maxNesting ≤ depth
      · simp only [if_pos nested]
        rfl
      simp only [if_neg nested, bind_assoc, pure_bind]
      refine bind_congr fun result => ?_
      by_cases isIf : byte = ifByte
      · simp only [if_pos isIf, conditional, bind_assoc, pure_bind]
        refine bind_congr fun name => bind_congr fun first => ?_
        by_cases another : first.2 = .alternative
        · simp only [alternative, if_pos another, closed, bind_assoc, pure_bind]
        · simp only [alternative, if_neg another, pure_bind]
      · simp only [if_neg isIf, enclosed, closed, bind_assoc, pure_bind]
        refine bind_congr fun first => bind_congr fun _ => ?_
        by_cases isLoop : byte = loopByte
        · simp only [if_pos isLoop, bind_assoc, pure_bind]
        · simp only [if_neg isLoop, bind_assoc, pure_bind]
    · simp only [if_neg isBlock, pure_bind]

theorem reading_closed {fuel : Nat} (ih : ∀ depth, Reading (instructions fuel depth))
    (depth : Nat) : Reading (closed fuel depth) :=
  (ih _).bind fun _ => (reading_requireFinish _).bind fun _ => reading_pure _

theorem reading_alternative {fuel : Nat} (ih : ∀ depth, Reading (instructions fuel depth))
    (depth : Nat) (terminator : Terminator) : Reading (alternative fuel depth terminator) := by
  unfold alternative
  split
  · exact reading_closed ih _
  · exact reading_pure []

theorem reading_conditional {fuel : Nat} (ih : ∀ depth, Reading (instructions fuel depth))
    (depth : Nat) (result : Option Valtype) : Reading (conditional fuel depth result) :=
  (reading_label (by decide) (by decide)).bind fun _ => (ih _).bind fun _ =>
    (reading_alternative ih _ _).bind fun _ => reading_pure _

theorem reading_enclosed {fuel : Nat} (ih : ∀ depth, Reading (instructions fuel depth))
    (depth : Nat) (byte : UInt8) (result : Option Valtype) :
    Reading (enclosed fuel depth byte result) := by
  refine (reading_closed ih _).bind fun body => ?_
  split
  · exact (reading_label (by decide) (by decide)).bind fun _ => reading_pure _
  · exact (reading_label (by decide) (by decide)).bind fun _ => reading_pure _

theorem reading_instruction {fuel : Nat} (ih : ∀ depth, Reading (instructions fuel depth))
    (depth start : Nat) (byte : UInt8) (op : Opcode) :
    Reading (instruction fuel depth start byte op) := by
  unfold instruction
  split
  · have typed : Reading (do
        let result ← blockType
        if byte = ifByte then conditional fuel depth result
        else enclosed fuel depth byte result) := by
      refine reading_blockType.bind fun result => ?_
      split
      · exact reading_conditional ih depth result
      · exact reading_enclosed ih depth byte result
    by_cases nested : maxNesting ≤ depth
    · simp only [structured, if_pos nested]
      exact (reading_failAt _ _).bind fun _ => typed
    · simp only [structured, if_neg nested]
      exact typed
  · exact reading_simple op

theorem reading_instructions (fuel depth : Nat) : Reading (instructions fuel depth) := by
  induction fuel generalizing depth with
  | zero => exact reading_fail _
  | succ fuel ih =>
    rw [instructions_succ]
    refine reading_pos.bind fun start => reading_byte.bind fun byte => ?_
    split
    · exact reading_failAt _ _
    · next op found =>
      refine (reading_note _).bind fun _ => ?_
      split
      · exact reading_pure _
      · split
        · exact reading_pure _
        · exact (reading_instruction ih _ _ _ _).bind fun node =>
            (ih depth).bind fun _ => reading_pure _

theorem reading_expression : Reading expression :=
  reading_get.bind fun _ => reading_closed (reading_instructions _) 0

end WasmEngine.Binary.Decode
