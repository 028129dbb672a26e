import WasmEngine.Proofs.Binary.FieldCode
import WasmEngine.Proofs.Binary.Instructions
import WasmEngine.Proofs.Binary.Offsets
import WasmEngine.Proofs.Binary.SectionTiling
import WasmEngine.Proofs.Syntax.NestedConstructs

/-!
# Nesting in bytes

The bytes of code are scanned piece by piece, with the number of blocks, loops and conditionals that are
open (`Scans`).  A decoded module has no instruction inside more constructs than are allowed
(`nests_of_decode`).  A module is refused for its nesting only where instructions are read, at the byte of a
construct inside as many as are allowed (`deep_of_decode`).
-/

namespace WasmEngine.Binary.Decode

open Outcome

/-! ## Scanning -/

/-- The bytes that open a construct. -/
def IsOpener (b : UInt8) : Prop := b = blockByte ∨ b = loopByte ∨ b = ifByte

/-- A piece of code, with the number of open constructs before and after it. -/
inductive Piece : Reader → Nat → Reader → Nat → Prop
  | simple {r : Reader} {b : UInt8} {bs : List UInt8} {op : Opcode} {d d' : Decoder} {node : Node} {n : Nat}
    (here : r.rest = b :: bs) (found : Opcode.ofByte? b = some op) (notBlock : op.immediate ≠ .block)
    (notEnd : b ≠ endByte) (notElse : b ≠ elseByte) (starts : d.reader = r.advance 1)
    (takes : simple op d = .ok node d') : Piece r n d'.reader n
  | opens {r : Reader} {b : UInt8} {bs : List UInt8} {d d' : Decoder} {result : Option Valtype} {n : Nat}
    (here : r.rest = b :: bs) (opener : IsOpener b) (starts : d.reader = r.advance 1)
    (takes : blockType d = .ok result d') : Piece r n d'.reader (n + 1)
  | alternative {r : Reader} {bs : List UInt8} {n : Nat} (here : r.rest = elseByte :: bs) :
    Piece r (n + 1) (r.advance 1) (n + 1)
  | closes {r : Reader} {bs : List UInt8} {n : Nat} (here : r.rest = endByte :: bs) :
    Piece r (n + 1) (r.advance 1) n

/-- Pieces of code in a row. -/
inductive Scans : Reader → Nat → Reader → Nat → Prop
  | refl (r : Reader) (n : Nat) : Scans r n r n
  | step {r s r' : Reader} {n k l : Nat} (first : Piece r n s k) (rest : Scans s k r' l) : Scans r n r' l

/-- A piece is a scan of one piece. -/
theorem Piece.scans {r r' : Reader} {n k : Nat} (piece : Piece r n r' k) : Scans r n r' k :=
  .step piece (.refl _ _)

/-- A scan after a scan. -/
theorem Scans.trans {r s r' : Reader} {n k l : Nat} (first : Scans r n s k) (rest : Scans s k r' l) :
    Scans r n r' l := by
  induction first with
  | refl => exact rest
  | step piece _ ih => exact .step piece (ih rest)

/-- A byte that is there can be read. -/
theorem later_advance {r : Reader} {b : UInt8} {bs : List UInt8} (here : r.rest = b :: bs) :
    r.Later (r.advance 1) := by
  refine ⟨1, ?_, rfl⟩
  rw [Reader.remaining, here, List.length_cons]
  omega

/-- A piece moves on. -/
theorem Piece.later {r r' : Reader} {n k : Nat} (piece : Piece r n r' k) : r.Later r' := by
  cases piece with
  | simple here _ _ _ _ starts takes =>
    have proceeds {lo : Nat} (op : Opcode) : Proceeds False lo lo (Decode.simple op) := proceeds_simple op
    have first := later_advance here
    rw [← starts] at first
    exact first.trans ((proceeds _).of_ok (Nat.le_refl _) takes).1
  | opens here _ starts takes =>
    have proceeds {lo : Nat} : Proceeds False lo lo blockType := proceeds_blockType
    have first := later_advance here
    rw [← starts] at first
    exact first.trans (proceeds.of_ok (Nat.le_refl _) takes).1
  | alternative here => exact later_advance here
  | closes here => exact later_advance here

/-- A scan moves on, or stays. -/
theorem Scans.later {r r' : Reader} {n k : Nat} (scans : Scans r n r' k) : r.Later r' := by
  induction scans with
  | refl => exact .refl _
  | step piece _ ih => exact piece.later.trans ih

/-- A sequence inside some constructs and the byte that ends it. -/
def Ended (n : Nat) (t : Terminator) (r r' : Reader) : Prop :=
  ∃ s bs, Scans r n s n ∧ s.rest = t.byte :: bs ∧ r' = s.advance 1

/-- What was closed by an end is scanned to the depth outside. -/
theorem Ended.scans_finish {n : Nat} {r r' : Reader} (ended : Ended (n + 1) .finish r r') :
    Scans r (n + 1) r' n := by
  obtain ⟨s, bs, scans, here, rfl⟩ := ended
  exact scans.trans (Piece.closes here).scans

/-- What was closed by an alternative is scanned to the depth inside. -/
theorem Ended.scans_alternative {n : Nat} {r r' : Reader} (ended : Ended (n + 1) .alternative r r') :
    Scans r (n + 1) r' (n + 1) := by
  obtain ⟨s, bs, scans, here, rfl⟩ := ended
  exact scans.trans (Piece.alternative here).scans

/-! ## What is read -/

section Steps

variable {d d' : Decoder}

/-- A label takes no bytes. -/
theorem reader_of_label {stem : String} {id : Identifier} (ends : label stem d = .ok id d') :
    d'.reader = d.reader := by
  cases ends
  rfl

/-- A note takes no bytes. -/
theorem reader_of_note {what : String} (ends : note what d = .ok () d') : d'.reader = d.reader := by
  cases ends
  dsimp only
  split <;> rfl

/-- A byte that was read was the next. -/
theorem rest_of_byte {b : UInt8} (ends : read .byte d = .ok b d') :
    ∃ bs, d.reader.rest = b :: bs ∧ d'.reader = d.reader.advance 1 := by
  unfold read Read.byte at ends
  cases here : d.reader.rest with
  | nil =>
    simp only [here] at ends
    cases ends
  | cons c bs =>
    simp only [here] at ends
    cases ends
    refine ⟨bs, rfl, ?_⟩
    rw [Reader.advance, here]
    rfl

/-- What had to be closed by an end was. -/
theorem finish_of_requireFinish {t : Terminator} (ends : requireFinish t d = .ok () d') :
    t = .finish ∧ d' = d := by
  cases t with
  | finish =>
    cases ends
    exact ⟨rfl, rfl⟩
  | alternative => cases ends

/-- The byte of a block opens a construct. -/
theorem isOpener_of_block {b : UInt8} {op : Opcode} (found : Opcode.ofByte? b = some op)
    (isBlock : op.immediate = .block) : IsOpener b := by
  obtain rfl := Opcode.byte_of_ofByte? found
  obtain isIf | isLoop | isBlock := Opcode.byte_of_block op (Opcode.mem_of_ofByte? found) isBlock
  · exact .inr (.inr isIf)
  · exact .inr (.inl isLoop)
  · exact .inl isBlock

end Steps

section Blocks

variable {fuel : Nat} (ih : ∀ n d r d', instructions fuel n d = .ok r d' → Ended n r.2 d.reader d'.reader)
include ih

/-- A closed sequence is scanned up to its end. -/
theorem ended_closed {n : Nat} {nodes : List Node} {d d' : Decoder} (ends : closed fuel n d = .ok nodes d') :
    Ended n .finish d.reader d'.reader := by
  obtain ⟨⟨body, t⟩, e, inside, rest⟩ := run_bind_eq_ok_iff.1 ends
  obtain ⟨⟨⟩, e', finishes, last⟩ := run_bind_eq_ok_iff.1 rest
  obtain ⟨rfl, rfl⟩ := finish_of_requireFinish finishes
  obtain ⟨-, rfl⟩ := run_pure_eq_ok_iff.1 last
  exact ih n d _ _ inside

/-- After the type of a conditional, its construct is open until it ends. -/
theorem scans_conditional {n : Nat} {result : Option Valtype} {node : Node} {d d' : Decoder}
    (ends : conditional fuel n result d = .ok node d') : Scans d.reader (n + 1) d'.reader n := by
  obtain ⟨id, e, labels, rest⟩ := run_bind_eq_ok_iff.1 ends
  obtain ⟨⟨consequent, t⟩, e', inside, rest⟩ := run_bind_eq_ok_iff.1 rest
  obtain ⟨alternate, e'', others, last⟩ := run_bind_eq_ok_iff.1 rest
  obtain ⟨-, rfl⟩ := run_pure_eq_ok_iff.1 last
  have ended := ih (n + 1) e _ _ inside
  rw [reader_of_label labels] at ended
  cases t with
  | finish =>
    cases others
    exact ended.scans_finish
  | alternative => exact ended.scans_alternative.trans (ended_closed ih others).scans_finish

/-- A block or a loop is scanned from its first byte inside to the depth outside. -/
theorem scans_enclosed {n : Nat} {byte : UInt8} {result : Option Valtype} {node : Node} {d d' : Decoder}
    (ends : enclosed fuel n byte result d = .ok node d') : Scans d.reader (n + 1) d'.reader n := by
  obtain ⟨body, e, inside, rest⟩ := run_bind_eq_ok_iff.1 ends
  have scans := (ended_closed ih inside).scans_finish
  have named {stem : String} {make : Identifier → Node}
      (made : (label stem >>= fun id => pure (make id)) e = .ok node d') : d'.reader = e.reader := by
    obtain ⟨id, e', labels, last⟩ := run_bind_eq_ok_iff.1 made
    obtain ⟨-, rfl⟩ := run_pure_eq_ok_iff.1 last
    exact reader_of_label labels
  split at rest
  · exact named rest ▸ scans
  · exact named rest ▸ scans

/-- An instruction leaves as many constructs open as there were before its byte. -/
theorem scans_instruction {n start : Nat} {b : UInt8} {bs : List UInt8} {op : Opcode} {node : Node} {r : Reader}
    {d d' : Decoder} (here : r.rest = b :: bs) (found : Opcode.ofByte? b = some op) (notEnd : b ≠ endByte)
    (notElse : b ≠ elseByte) (starts : d.reader = r.advance 1)
    (ends : instruction fuel n start b op d = .ok node d') : Scans r n d'.reader n := by
  unfold instruction at ends
  split at ends
  · next isBlock =>
    have opener := isOpener_of_block found isBlock
    have typed (ends : (do
        let result ← blockType
        if b = ifByte then conditional fuel n result else enclosed fuel n b result) d = .ok node d') :
        Scans r n d'.reader n := by
      obtain ⟨result, e, takes, rest⟩ := run_bind_eq_ok_iff.1 ends
      have opened := (Piece.opens (n := n) here opener starts takes).scans
      split at rest
      · exact opened.trans (scans_conditional ih rest)
      · exact opened.trans (scans_enclosed ih rest)
    unfold structured at ends
    split at ends
    · cases ends
    · exact typed ends
  · next notBlock => exact (Piece.simple here found notBlock notEnd notElse starts ends).scans

end Blocks

/-- A sequence leaves the constructs open that it stands in, and ends with the byte that closes it. -/
theorem ended_instructions (fuel : Nat) : ∀ n d r d',
    instructions fuel n d = .ok r d' → Ended n r.2 d.reader d'.reader := by
  induction fuel with
  | zero =>
    intro n d r d' ends
    cases ends
  | succ fuel ih =>
    intro n d r d' ends
    rw [instructions_succ] at ends
    obtain ⟨start, _, position, ends⟩ := run_bind_eq_ok_iff.1 ends
    cases position
    obtain ⟨b, e, reads, ends⟩ := run_bind_eq_ok_iff.1 ends
    obtain ⟨bs, here, moved⟩ := rest_of_byte reads
    cases found : Opcode.ofByte? b with
    | none =>
      simp only [found] at ends
      cases ends
    | some op =>
      simp only [found] at ends
      obtain ⟨⟨⟩, e', notes, ends⟩ := run_bind_eq_ok_iff.1 ends
      have after : e'.reader = d.reader.advance 1 := (reader_of_note notes).trans moved
      split_ifs at ends with isEnd isElse
      · cases ends
        rw [isEnd] at here
        exact ⟨d.reader, bs, .refl _ _, here, after⟩
      · cases ends
        rw [isElse] at here
        exact ⟨d.reader, bs, .refl _ _, here, after⟩
      · obtain ⟨node, t, first, ends⟩ := run_bind_eq_ok_iff.1 ends
        obtain ⟨⟨nodes, terminator⟩, t', others, last⟩ := run_bind_eq_ok_iff.1 ends
        obtain ⟨rfl, rfl⟩ := run_pure_eq_ok_iff.1 last
        have scans := scans_instruction ih here found isEnd isElse after first
        obtain ⟨s, cs, later, stop, same⟩ := ih n t _ _ others
        exact ⟨s, cs, scans.trans later, stop, same⟩

/-- An expression ends where all its constructs are closed. -/
theorem scans_expression {nodes : List Node} {d d' : Decoder} (ends : expression d = .ok nodes d') :
    Ended 0 .finish d.reader d'.reader := by
  obtain ⟨_, _, got, ends⟩ := run_bind_eq_ok_iff.1 ends
  cases got
  exact ended_closed (ended_instructions _) ends

/-! ## What is refused -/

/-- An error about a construct that is opened inside as many as are allowed. -/
def Deep (n : Nat) (r : Reader) (x : DecodeError) : Prop :=
  ∃ s b bs, Scans r n s maxNesting ∧ s.rest = b :: bs ∧ IsOpener b ∧
    x = ⟨.nestingTooDeep maxNesting, s.pos⟩

/-- What is too deep behind a scan is too deep. -/
theorem Deep.after {n k : Nat} {r s : Reader} {x : DecodeError} (deep : Deep k s x) (before : Scans r n s k) :
    Deep n r x := by
  obtain ⟨t, b, bs, scans, here, opener, same⟩ := deep
  exact ⟨t, b, bs, before.trans scans, here, opener, same⟩

section Refusals

variable {α β : Type} {m : DecodeM α} {f : α → DecodeM β} {d d' : Decoder} {x : DecodeError}

/-- A refusal for nesting comes after a step without code. -/
theorem Codeless.error_of_bind (first : Codeless m) (fails : (m >>= f) d = .error x d')
    (nesting : x.kind.isNesting = true) : ∃ a e, m d = .ok a e ∧ f a e = .error x d' := by
  rcases run_bind_eq_error_iff.1 fails with early | later
  · exact (first.spares.never early nesting).elim
  · exact later

/-- A refusal for nesting comes before steps that have none. -/
theorem error_of_bind_sparing (rest : ∀ a, Sparing (f a)) (fails : (m >>= f) d = .error x d')
    (nesting : x.kind.isNesting = true) : m d = .error x d' := by
  rcases run_bind_eq_error_iff.1 fails with early | ⟨a, e, -, later⟩
  · exact early
  · exact ((rest a).never later nesting).elim

end Refusals

section Blocks

variable {fuel : Nat} (ih : ∀ n d x d', n ≤ maxNesting → instructions fuel n d = .error x d' →
  x.kind.isNesting = true → Deep n d.reader x)
include ih

/-- A closed sequence is refused for its depth only where a block stands too deep. -/
theorem deep_closed {n : Nat} {d d' : Decoder} {x : DecodeError} (within : n ≤ maxNesting)
    (fails : closed fuel n d = .error x d') (nesting : x.kind.isNesting = true) : Deep n d.reader x := by
  have sparing (r : List Node × Terminator) : Sparing (do requireFinish r.2; pure r.1) :=
    (codeless_requireFinish _).spares.bind fun _ => (codeless_pure _).spares
  exact ih n d x d' within (error_of_bind_sparing sparing fails nesting) nesting

/-- A conditional is refused for its depth only where a block stands too deep. -/
theorem deep_conditional {n : Nat} {result : Option Valtype} {d d' : Decoder} {x : DecodeError}
    (within : n + 1 ≤ maxNesting) (fails : conditional fuel n result d = .error x d')
    (nesting : x.kind.isNesting = true) : Deep (n + 1) d.reader x := by
  obtain ⟨id, e, labels, fails⟩ := (codeless_label _).error_of_bind fails nesting
  rw [← reader_of_label labels]
  rcases run_bind_eq_error_iff.1 fails with early | ⟨⟨consequent, t⟩, e', inside, fails⟩
  · exact ih (n + 1) e x d' within early nesting
  · have fails := error_of_bind_sparing (fun _ => (codeless_pure _).spares) fails nesting
    have ended := ended_instructions fuel (n + 1) e _ _ inside
    cases t with
    | finish => cases fails
    | alternative => exact (deep_closed ih within fails nesting).after ended.scans_alternative

/-- A block or a loop is refused for its depth only where a block stands too deep. -/
theorem deep_enclosed {n : Nat} {byte : UInt8} {result : Option Valtype} {d d' : Decoder} {x : DecodeError}
    (within : n + 1 ≤ maxNesting) (fails : enclosed fuel n byte result d = .error x d')
    (nesting : x.kind.isNesting = true) : Deep (n + 1) d.reader x := by
  refine deep_closed ih within (error_of_bind_sparing (fun body => ?_) fails nesting) nesting
  split
  · exact (codeless_label _).spares.bind fun _ => (codeless_pure _).spares
  · exact (codeless_label _).spares.bind fun _ => (codeless_pure _).spares

/-- An instruction is refused for its depth only if it or one inside it stands too deep. -/
theorem deep_instruction {n : Nat} {b : UInt8} {bs : List UInt8} {op : Opcode} {r : Reader} {d d' : Decoder}
    {x : DecodeError} (here : r.rest = b :: bs) (found : Opcode.ofByte? b = some op)
    (starts : d.reader = r.advance 1) (within : n ≤ maxNesting)
    (fails : instruction fuel n r.pos b op d = .error x d') (nesting : x.kind.isNesting = true) :
    Deep n r x := by
  unfold instruction at fails
  split at fails
  · next isBlock =>
    have opener := isOpener_of_block found isBlock
    unfold structured at fails
    split at fails
    · next full =>
      obtain rfl : n = maxNesting := Nat.le_antisymm within full
      cases fails
      exact ⟨r, b, bs, .refl _ _, here, opener, rfl⟩
    · next room =>
      have within : n + 1 ≤ maxNesting := by omega
      obtain ⟨result, e, takes, fails⟩ := codeless_blockType.error_of_bind fails nesting
      have opened := (Piece.opens (n := n) here opener starts takes).scans
      split at fails
      · exact (deep_conditional ih within fails nesting).after opened
      · exact (deep_enclosed ih within fails nesting).after opened
  · exact ((codeless_simple op).spares.never fails nesting).elim

end Blocks

/-- A sequence is refused for nesting just where it opens a construct inside as many as are allowed. -/
theorem deep_instructions (fuel : Nat) : ∀ n d x d', n ≤ maxNesting →
    instructions fuel n d = .error x d' → x.kind.isNesting = true → Deep n d.reader x := by
  induction fuel with
  | zero =>
    intro n d x d' _ fails nesting
    cases fails
    cases nesting
  | succ fuel ih =>
    intro n d x d' within fails nesting
    rw [instructions_succ] at fails
    obtain ⟨start, _, position, fails⟩ := codeless_pos.error_of_bind fails nesting
    cases position
    obtain ⟨b, e, reads, fails⟩ := codeless_byte.error_of_bind fails nesting
    obtain ⟨bs, here, moved⟩ := rest_of_byte reads
    cases found : Opcode.ofByte? b with
    | none =>
      simp only [found] at fails
      cases fails
      cases nesting
    | some op =>
      simp only [found] at fails
      obtain ⟨⟨⟩, e', notes, fails⟩ := (codeless_note _).error_of_bind fails nesting
      have after : e'.reader = d.reader.advance 1 := (reader_of_note notes).trans moved
      split_ifs at fails with isEnd isElse
      · cases fails
      · cases fails
      · rcases run_bind_eq_error_iff.1 fails with early | ⟨node, t, first, fails⟩
        · exact deep_instruction ih here found after within early nesting
        · have fails := error_of_bind_sparing (fun _ => (codeless_pure _).spares) fails nesting
          have scans := scans_instruction (ended_instructions fuel) here found isEnd isElse after first
          exact (ih n t x d' within fails nesting).after scans

/-- An expression is refused for its depth only where a block stands too deep. -/
theorem deep_of_expression {x : DecodeError} {d d' : Decoder} (fails : expression d = .error x d')
    (nesting : x.kind.isNesting = true) : Deep 0 d.reader x := by
  obtain ⟨_, _, got, fails⟩ := codeless_get.error_of_bind fails nesting
  cases got
  exact deep_closed (deep_instructions _) (Nat.zero_le _) fails nesting

end WasmEngine.Binary.Decode

namespace WasmEngine.Binary

open Outcome Node Decode

/-! ## What is accepted -/

namespace Decode

theorem nests_plain {room : Nat} {op : Opcode} {args : List Node} {memArg : Option MemArg}
    (inside : CodeNests room args) : Nests room (plain op args memArg) :=
  .other rfl (nestIn_listed inside)

/-- An instruction other than a block has no code inside. -/
theorem gives_nested_simple (room : Nat) (op : Opcode) : Gives (Nests room) (simple op) := by
  have indexed (n : Nat) : Nests room (indexArg n) := nests_leaf _ rfl rfl
  unfold simple
  split
  · exact gives_pure (nests_plain nofun)
  · exact gives_pure (nests_plain nofun)
  · refine Gives.then fun index => ?_
    split
    · exact gives_pure (.other rfl (nestIn_one (nests_ofIndex _)))
    · exact gives_pure (nests_plain (List.forall_mem_singleton.2 (indexed index)))
  · exact Gives.then fun count => Gives.then fun labels =>
      gives_pure (nests_plain (List.forall_mem_map.2 fun n _ => indexed n))
  · refine Gives.then fun start => Gives.then fun index => Gives.then fun d => ?_
    split
    · exact gives_failAt
    · exact Gives.then fun _ => gives_pure (.other rfl (nestIn_one (nests_ofSignatureRef _)))
  · exact Gives.then fun align => Gives.then fun offset => gives_pure (nests_plain nofun)
  · exact Gives.then fun _ => gives_pure (nests_plain nofun)
  · exact Gives.then fun value =>
      gives_pure (nests_plain (List.forall_mem_singleton.2 (nests_leaf _ rfl rfl)))
  · exact Gives.then fun value =>
      gives_pure (nests_plain (List.forall_mem_singleton.2 (nests_leaf _ rfl rfl)))
  · exact Gives.then fun bits =>
      gives_pure (nests_plain (List.forall_mem_singleton.2 (nests_leaf _ rfl rfl)))
  · exact Gives.then fun bits =>
      gives_pure (nests_plain (List.forall_mem_singleton.2 (nests_leaf _ rfl rfl)))

/-- Code that nests within the limit is closed under what the decoder puts together. -/
theorem closed_nests : Closed fun depth => CodeNests (maxNesting - depth) where
  nil _ := nofun
  cons first rest := List.forall_mem_cons.2 ⟨first _ List.mem_cons_self, rest⟩
  simple _ _ := (gives_nested_simple _ _).imp fun _ nests => List.forall_mem_singleton.2 nests
  block _ _ nested inside := List.forall_mem_singleton.2 ((nests_block inside).mono (by omega))
  loop _ _ nested inside := List.forall_mem_singleton.2 ((nests_loop inside).mono (by omega))
  ifElse _ _ nested whenTrue whenFalse :=
    List.forall_mem_singleton.2 ((nests_ifElse whenTrue whenFalse).mono (by omega))

end Decode

theorem nests_of_codeHas {room : Nat} {field : Node} (has : field.CodeHas (CodeNests room)) :
    Nests room field := by
  cases field with
  | func => exact nests_func has
  | global => exact nests_global has
  | elem => exact nests_elem has
  | data => exact nests_data has
  | typeDef t => exact nests_typeDef t
  | moduleImport decl => exact nests_moduleImport decl
  | table t => exact nests_table t
  | memory m => exact nests_memory m
  | start i => exact nests_start i
  | moduleExport e => exact nests_moduleExport e
  | _ => exact has.elim

/-- Nothing in a decoded module is inside more constructs than are allowed. -/
theorem nests_of_decode {options : DecoderOptions} {bytes : List UInt8} {p : Program}
    (decoded : decode options bytes = .ok p) : Nests maxNesting (.program p.body) := by
  have empty : CodeNests (maxNesting - 0) [] := nofun
  obtain ⟨fields, metadata, rfl, each⟩ := code_of_decode (gives_expression closed_nests) empty decoded
  have whole : Nests maxNesting (.module none fields (some metadata)) :=
    nests_module fun field inside => nests_of_codeHas (each field inside)
  exact .other rfl (nestIn_listed (List.forall_mem_singleton.2 whole))

/-! ## Where instructions are read -/

namespace Decode

/-- What comes before the instructions of an entry. -/
def preamble : SectionId → Nat → DecodeM Unit
  | .global, _ => do
    let _ ← globalType
  | .element, _ => do
    let _ ← read .u32
  | .code, i => do
    let size ← read .u32
    note s!"function body {i} ({size} bytes)"
    let runs ← read .u32
    let _ ← localRuns 0 runs
  | .data, _ => do
    let _ ← read .u32
  | _, _ => failAt 0 .magicHeader

/-- What comes before the entries of a section, with the number of these. -/
def sectionHead : DecodeM (SectionId × Nat) := do
  let id ← sectionId
  let size ← read .u32
  if !(← get).reader.hasAtLeast size then read (.fail .unexpectedEnd)
  note s!"section {id.name}"
  let count ← read .u32
  note s!"{count} entries"
  return (id, count)

/-- Where a decoding comes to instructions: some sections, the entries of the next one up to some entry and
the preamble of this entry are read. -/
inductive ExpressionAt (options : DecoderOptions) (bytes : List UInt8) : Decoder → Prop
  | here {begin d e t t' : Decoder} {sections : Nat} {id : SectionId} {i count : Nat}
    (headed : header (.start options bytes) = .ok () begin)
    (before : forEach (fun _ => readSection) 0 sections begin = .ok () d)
    (head : sectionHead d = .ok (id, count) e) (reads : ¬e.options.PassesOver id) (within : i < count)
    (entries : forEach (entryStep id) 0 i e = .ok () t) (opens : preamble id i t = .ok () t') :
    ExpressionAt options bytes t'

theorem proceeds_preamble {lo : Nat} (id : SectionId) (i : Nat) : Proceeds False lo lo (preamble id i) := by
  cases id with
  | global => exact proceeds_globalType.bind fun _ => proceeds_pure _
  | element => exact proceeds_u32.bind fun _ => proceeds_pure _
  | code =>
    exact proceeds_u32.bind fun size => (proceeds_note _).bind fun _ => proceeds_u32.bind fun runs =>
      (proceeds_localRuns 0 runs).bind fun _ => proceeds_pure _
  | data => exact proceeds_u32.bind fun _ => proceeds_pure _
  | _ => exact proceeds_failAt (Nat.zero_le _) _

theorem proceeds_sectionHead {lo : Nat} : Proceeds False lo (lo + 1) sectionHead :=
  proceeds_sectionId.bind fun _ => proceeds_u32.bind fun _ => proceeds_look fun _ =>
    proceeds_check (proceeds_fail _) fun _ => (proceeds_note _).bind fun _ => proceeds_u32.bind fun _ =>
      (proceeds_note _).bind fun _ => proceeds_pure _

theorem proceeds_entryStep {lo : Nat} (id : SectionId) (i : Nat) : Proceeds False lo lo (entryStep id i) := by
  cases id with
  | type => exact proceeds_typeEntry i
  | imports => exact proceeds_importEntry i
  | function => exact proceeds_functionEntry i
  | table => exact proceeds_tableEntry i
  | memory => exact proceeds_memoryEntry i
  | global => exact proceeds_globalEntry i
  | exports => exact proceeds_exportEntry i
  | element => exact proceeds_elementEntry i
  | code => exact proceeds_codeEntry i
  | data => exact proceeds_dataEntry i
  | start => exact proceeds_startSection
  | custom => exact proceeds_failAt (Nat.zero_le _) _

/-- A decoding comes to instructions in its input. -/
theorem ExpressionAt.later {options : DecoderOptions} {bytes : List UInt8} {d : Decoder}
    (reached : ExpressionAt options bytes d) : (Reader.start bytes).Later d.reader := by
  cases reached with
  | @here begin d e t _ _ id i _ headed before head _ _ entries opens =>
    have one {lo : Nat} : Proceeds False lo lo readSection :=
      proceeds_readSection.mono False.elim (Nat.le_refl _) (Nat.le_succ _)
    have start : Proceeds False 0 8 header := proceeds_header
    have sections := (proceeds_forEach (fun _ => one) 0 _).of_ok (Nat.le_refl _) before
    have all := (proceeds_forEach (proceeds_entryStep id) 0 i).of_ok (Nat.le_refl _) entries
    have first := (start.of_ok (Nat.zero_le _) headed).1.trans sections.1
    have second := (proceeds_sectionHead.of_ok (Nat.le_refl _) head).1.trans all.1
    exact (first.trans second).trans ((proceeds_preamble id i).of_ok (Nat.le_refl _) opens).1

variable {d d' : Decoder} {x : DecodeError}

/-- An entry is refused for nesting in its instructions. -/
theorem expression_of_entryStep {id : SectionId} {i : Nat} (fails : entryStep id i d = .error x d')
    (nesting : x.kind.isNesting = true) :
    ∃ e, preamble id i d = .ok () e ∧ expression e = .error x d' := by
  have never {m : DecodeM Unit} (codeless : Codeless m) (fails : m d = .error x d') : False :=
    codeless.spares.never fails nesting
  cases id with
  | global =>
    obtain ⟨type, e, takes, fails⟩ := codeless_globalType.error_of_bind fails nesting
    refine ⟨e, bind_ok takes, error_of_bind_sparing (fun init => ?_) fails nesting⟩
    exact sparing_modify.bind fun _ => sparing_modify
  | element =>
    obtain ⟨target, e, takes, fails⟩ := codeless_u32.error_of_bind fails nesting
    refine ⟨e, bind_ok takes, error_of_bind_sparing (fun offset => ?_) fails nesting⟩
    exact codeless_u32.spares.bind fun count =>
      (alongNames_codeless.times codeless_u32 count).spares.bind fun _ => sparing_modify
  | code =>
    obtain ⟨size, e, takes, fails⟩ := codeless_u32.error_of_bind fails nesting
    obtain ⟨start, _, position, fails⟩ := codeless_pos.error_of_bind fails nesting
    cases position
    obtain ⟨⟨⟩, t, notes, fails⟩ := (codeless_note _).error_of_bind fails nesting
    obtain ⟨runs, t', counts, fails⟩ := codeless_u32.error_of_bind fails nesting
    obtain ⟨locals, s, given, fails⟩ := (codeless_localRuns 0 runs).error_of_bind fails nesting
    refine ⟨s, ?_, error_of_bind_sparing (fun body => ?_) fails nesting⟩
    · rw [preamble, bind_ok takes, bind_ok notes, bind_ok counts, bind_ok given]
      rfl
    · exact (alongNames_codeless.expectPosition _ _).spares.bind fun _ => sparing_modify
  | data =>
    obtain ⟨target, e, takes, fails⟩ := codeless_u32.error_of_bind fails nesting
    obtain ⟨start, _, position, fails⟩ := codeless_pos.error_of_bind fails nesting
    cases position
    refine ⟨e, bind_ok takes, error_of_bind_sparing (fun offset => ?_) fails nesting⟩
    have last : Sparing (do
        let count ← read .u32
        let values ← read (.bytes count)
        note s!"data segment ({count} bytes)"
        addField (.data (.ofNat target) offset values)) :=
      codeless_u32.spares.bind fun count => (codeless_read (spares_bytes count)).spares.bind fun _ =>
        (codeless_note _).spares.bind fun _ => sparing_modify
    dsimp only
    split
    · exact (codeless_failAt rfl).spares.bind fun _ => last
    · exact last
  | type => exact (never (codeless_typeEntry i) fails).elim
  | imports => exact (never (codeless_importEntry i) fails).elim
  | function => exact (never (codeless_functionEntry i) fails).elim
  | table => exact (never (codeless_tableEntry i) fails).elim
  | memory => exact (never (codeless_memoryEntry i) fails).elim
  | exports => exact (never (codeless_exportEntry i) fails).elim
  | start => exact (never codeless_startSection fails).elim
  | custom => exact (never (codeless_failAt rfl) fails).elim

/-- A loop is refused by the first of its steps that is refused. -/
theorem step_of_forEach {step : Nat → DecodeM Unit} {i n : Nat} (fails : forEach step i n d = .error x d') :
    ∃ k e, k < n ∧ forEach step i k d = .ok () e ∧ step (i + k) e = .error x d' := by
  induction n generalizing i d with
  | zero => cases fails
  | succ n ih =>
    rcases run_bind_eq_error_iff.1 fails with now | ⟨⟨⟩, e, first, later⟩
    · exact ⟨0, d, Nat.succ_pos n, rfl, now⟩
    · obtain ⟨k, t, few, before, now⟩ := ih later
      refine ⟨k + 1, t, Nat.succ_lt_succ few, ?_, ?_⟩
      · rw [forEach, bind_ok first]
        exact before
      · rwa [Nat.add_right_comm, Nat.add_assoc] at now

/-- Entries are refused for nesting in the instructions of one of them, if they are read at all. -/
theorem expression_of_vector {id : SectionId} {count stop : Nat} (some_ : id ≠ .custom) (notStart : id ≠ .start)
    (fails : vectorSection id count stop d = .error x d') (nesting : x.kind.isNesting = true) :
    ¬d.options.PassesOver id ∧ ∃ i t t', i < count ∧ forEach (entryStep id) 0 i d = .ok () t ∧
      preamble id i t = .ok () t' ∧ expression t' = .error x d' := by
  by_cases passes : d.options.PassesOver id
  · rw [vectorSection_of_passes passes] at fails
    exact ((codeless_skipTo _).spares.never fails nesting).elim
  · rw [vectorSection_of_reads some_ notStart passes] at fails
    obtain ⟨i, t, within, entries, fails⟩ := step_of_forEach fails
    rw [Nat.zero_add] at fails
    obtain ⟨t', opens, refused⟩ := expression_of_entryStep fails nesting
    exact ⟨passes, i, t, t', within, entries, opens, refused⟩

/-- The contents of a section are refused for nesting only among entries. -/
theorem vector_of_sectionBody {id : SectionId} {stop : Nat} (fails : sectionBody id stop d = .error x d')
    (nesting : x.kind.isNesting = true) : id ≠ .custom ∧ id ≠ .start ∧
      ∃ count e t, read .u32 d = .ok count e ∧ note s!"{count} entries" e = .ok () t ∧
        vectorSection id count stop t = .error x d' := by
  by_cases isCustom : id = .custom
  · subst isCustom
    have sparing := (codeless_customSection stop).spares.bind fun _ => (codeless_pure 0).spares
    exact (sparing.never fails nesting).elim
  by_cases isStart : id = .start
  · subst isStart
    have sparing := codeless_startSection.spares.bind fun _ => (codeless_pure 0).spares
    exact (sparing.never fails nesting).elim
  rw [sectionBody_eq isCustom isStart] at fails
  obtain ⟨count, e, counts, fails⟩ := codeless_u32.error_of_bind fails nesting
  obtain ⟨⟨⟩, t, noted, fails⟩ := (codeless_note _).error_of_bind fails nesting
  have refused := error_of_bind_sparing (fun _ => (codeless_pure count).spares) fails nesting
  exact ⟨isCustom, isStart, count, e, t, counts, noted, refused⟩

/-- A section is refused for nesting in the instructions of one of its entries. -/
theorem expression_of_section (fails : readSection d = .error x d') (nesting : x.kind.isNesting = true) :
    ∃ id count i e t t', sectionHead d = .ok (id, count) e ∧ ¬e.options.PassesOver id ∧ i < count ∧
      forEach (entryStep id) 0 i e = .ok () t ∧ preamble id i t = .ok () t' ∧ expression t' = .error x d' := by
  obtain ⟨start, _, position, fails⟩ := codeless_pos.error_of_bind fails nesting
  cases position
  obtain ⟨id, d₁, number, fails⟩ := codeless_sectionId.error_of_bind fails nesting
  obtain ⟨size, d₂, sized, fails⟩ := codeless_u32.error_of_bind fails nesting
  obtain ⟨begin, _, position, fails⟩ := codeless_pos.error_of_bind fails nesting
  cases position
  obtain ⟨_, _, got, fails⟩ := codeless_get.error_of_bind fails nesting
  cases got
  by_cases enough : d₂.reader.hasAtLeast size = true
  · simp only [enough, Bool.not_true, Bool.false_eq_true, if_false] at fails
    obtain ⟨⟨⟩, d₃, notes, fails⟩ := (codeless_note _).error_of_bind fails nesting
    have fails := error_of_bind_sparing (fun count =>
      (alongNames_codeless.expectPosition _ _).spares.bind fun _ => sparing_modify) fails nesting
    obtain ⟨some_, notStart, count, d₄, d₅, counts, noted, fails⟩ := vector_of_sectionBody fails nesting
    obtain ⟨reads, i, t, t', within, entries, opens, refused⟩ :=
      expression_of_vector some_ notStart fails nesting
    refine ⟨id, count, i, d₅, t, t', ?_, reads, within, entries, opens, refused⟩
    have get_eq : (get : DecodeM Decoder) d₂ = .ok d₂ d₂ := rfl
    rw [sectionHead, bind_ok number, bind_ok sized, bind_ok get_eq]
    simp only [enough, Bool.not_true, Bool.false_eq_true, if_false]
    rw [bind_ok notes, bind_ok counts, bind_ok noted]
    rfl
  · simp only [enough, Bool.not_false, if_true] at fails
    exact ((codeless_read (spares_fail rfl)).spares.never fails nesting).elim

/-- Sections are refused by the first that is refused. -/
theorem section_of_sections {fuel : Nat} (fails : readSections fuel d = .error x d') (i : Nat) :
    ∃ k e, forEach (fun _ => readSection) i k d = .ok () e ∧ readSection e = .error x d' := by
  induction fuel generalizing d i with
  | zero => cases fails
  | succ fuel ih =>
    have get_eq : (get : DecodeM Decoder) d = .ok d d := rfl
    rw [readSections, bind_ok get_eq] at fails
    split_ifs at fails
    · rcases run_bind_eq_error_iff.1 fails with now | ⟨⟨⟩, e, first, later⟩
      · exact ⟨0, d, rfl, now⟩
      · obtain ⟨k, t, before, now⟩ := ih later (i + 1)
        refine ⟨k + 1, t, ?_, now⟩
        rw [forEach, bind_ok first]
        exact before
    · cases fails

/-- A function without a body is another error. -/
theorem isNesting_of_assemble {index : Nat} {funcs : List DeclaredFunc} {code : List CodeEntry}
    (fails : assemble d index funcs code = .error x) : x.kind.isNesting = false := by
  induction funcs generalizing index code with
  | nil => cases fails
  | cons f funcs ih =>
    unfold assemble at fails
    split at fails
    · exact ih fails
    · split at fails
      · rcases bind_eq_error_iff.1 fails with now | ⟨rest, -, later⟩
        · exact ih now
        · cases later
      · split at fails
        · cases fails
          rfl
        · rcases bind_eq_error_iff.1 fails with now | ⟨rest, -, later⟩
          · exact ih now
          · cases later

/-- If a module is refused for depth, then one of its expressions is. -/
theorem expressionAt_of_module {options : DecoderOptions} {bytes : List UInt8}
    (fails : module (.start options bytes) = .error x d') (nesting : x.kind.isNesting = true) :
    ∃ e, ExpressionAt options bytes e ∧ expression e = .error x d' := by
  obtain ⟨⟨⟩, begin, headed, fails⟩ := codeless_header.error_of_bind fails nesting
  obtain ⟨_, _, got, fails⟩ := codeless_get.error_of_bind fails nesting
  cases got
  rcases run_bind_eq_error_iff.1 fails with refused | ⟨⟨⟩, last, -, fails⟩
  · obtain ⟨k, d, before, refused⟩ := section_of_sections refused 0
    obtain ⟨id, count, i, e, t, t', head, reads, within, entries, opens, refused⟩ :=
      expression_of_section refused nesting
    exact ⟨t', .here headed before head reads within entries opens, refused⟩
  · obtain ⟨_, _, got, fails⟩ := codeless_get.error_of_bind fails nesting
    cases got
    cases finished : finish last with
    | ok program =>
      simp only [finished] at fails
      cases fails
    | error y =>
      simp only [finished] at fails
      cases fails
      rcases bind_eq_error_iff.1 finished with missing | ⟨funcs, -, later⟩
      · rw [isNesting_of_assemble missing] at nesting
        cases nesting
      · cases later

end Decode

/-- A byte string is refused for nesting only where instructions are read, at the byte of a construct inside
as many as are allowed. -/
theorem deep_of_decode {options : DecoderOptions} {bytes : List UInt8} {x : DecodeError}
    (fails : decode options bytes = .error x) (nesting : x.kind.isNesting = true) :
    x.kind = .nestingTooDeep maxNesting ∧ ∃ d s b, ExpressionAt options bytes d ∧
      Scans d.reader 0 s maxNesting ∧ x.offset = s.pos ∧ bytes[x.offset]? = some b ∧ IsOpener b := by
  unfold decode decodeWithTrace at fails
  split at fails
  · cases fails
  · next y d' ends =>
    cases fails
    obtain ⟨d, reached, refused⟩ := expressionAt_of_module ends nesting
    obtain ⟨s, b, bs, scans, here, opener, rfl⟩ := deep_of_expression refused nesting
    have rest := rest_of_later (reached.later.trans scans.later)
    refine ⟨rfl, d, s, b, reached, scans, rfl, ?_, opener⟩
    show bytes[s.pos]? = some b
    rw [← List.head?_drop, ← rest, here]
    rfl

end WasmEngine.Binary
