import WasmEngine.Proofs.Binary.Entries
import WasmEngine.Proofs.Binary.Offsets
import WasmEngine.Proofs.Syntax.Alike

/-!
# Decoding with other options

A decoder that passes over parts of a module goes along with one that reads it whole (`Abridges`).  The
entries that both read they read alike (`Abridges.forEach`), except that the labels in the offset of a data
segment may get other numbers.
-/

namespace WasmEngine

/-- The metadata of a module without what options pass over. -/
def ModuleMetadata.without (o : Binary.DecoderOptions) (metadata : ModuleMetadata) : ModuleMetadata :=
  if o.ignoreNameSection then { metadata with functionNames := [], localNames := [], moduleName := none }
  else metadata

namespace Binary

open Outcome

/-- Whether options leave a field. -/
def DecoderOptions.keeps (o : DecoderOptions) (node : Node) : Bool :=
  !(o.ignoreDataSection && node.kind == .data)

/-- A decoder that stands where one that reads all does, and holds what its options leave. -/
structure Abridges (o : DecoderOptions) (shift : String → Int) (d d' : Decoder) : Prop where
  options : d'.options = o
  reader : d'.reader = d.reader
  names : ∀ stem, (d.names.count stem : Int) = d'.names.count stem + shift stem
  types : d'.types = d.types
  functions : d'.functions = d.functions
  tables : d'.tables = d.tables
  memories : d'.memories = d.memories
  globals : d'.globals = d.globals
  code : o.ignoreCodeSection = false → d'.code = d.code
  exports : d'.exports = d.exports
  fields : Node.OffsetsMoved shift (d.fields.filter o.keeps) d'.fields
  metadata : d'.metadata = d.metadata.without o
  nextSection : d'.nextSection = d.nextSection

namespace Decode

variable {o : DecoderOptions} {shift : String → Int} {α β : Type}

/-! ## Steps that read the same -/

/-- A step whose result does not depend on what a decoder passes over. -/
def InStep (o : DecoderOptions) (shift : String → Int) (m : DecodeM α) : Prop :=
  Mirrors (Abridges o shift) Eq m m

/-- Two steps in a row stay in step. -/
theorem InStep.bind {m : DecodeM α} {f : α → DecodeM β} (first : InStep o shift m)
    (rest : ∀ a, InStep o shift (f a)) : InStep o shift (m >>= f) :=
  Mirrors.bind first fun a _ same => same ▸ rest a

/-- A step whose result is the same comes first. -/
theorem InStep.after {V : β → β → Prop} {m : DecodeM α} {f : α → DecodeM β} (first : InStep o shift m)
    (rest : ∀ a, Mirrors (Abridges o shift) V (f a) (f a)) :
    Mirrors (Abridges o shift) V (m >>= f) (m >>= f) :=
  Mirrors.bind first fun a _ same => same ▸ rest a

theorem inStep_pure (a : α) : InStep o shift (pure a) := mirrors_pure rfl

theorem inStep_failAt (offset : Nat) (kind : DecodeErrorKind) : InStep o shift (failAt offset kind : DecodeM α) :=
  mirrors_throw _

theorem inStep_read (r : Read α) : InStep o shift (read r) := by
  intro d d' abridges
  unfold read
  rw [abridges.reader]
  cases r d.reader with
  | ok a reader => exact .ok rfl { abridges with reader := rfl }
  | error e reader => exact .error { abridges with reader := rfl }

/-- A read that is refused. -/
theorem mirrors_fail {V : α → α → Prop} (kind : DecodeErrorKind) :
    Mirrors (Abridges o shift) V (read (.fail kind)) (read (.fail kind)) := by
  intro d d' abridges
  unfold read Read.fail
  rw [abridges.reader]
  exact .error { abridges with reader := rfl }

theorem inStep_pos : InStep o shift pos := fun _ _ abridges =>
  .ok (congrArg Reader.pos abridges.reader.symm) abridges

theorem inStep_note (what : String) : InStep o shift (note what) := by
  intro d d' abridges
  refine .ok rfl ?_
  dsimp only
  split_ifs <;> exact { abridges with }

theorem inStep_times {step : DecodeM α} (inStep : InStep o shift step) (n : Nat) :
    InStep o shift (times step n) := by
  induction n with
  | zero => exact inStep_pure []
  | succ n ih => exact inStep.bind fun a => ih.bind fun as => inStep_pure _

theorem inStep_expectPosition (stop : Nat) (what : String) : InStep o shift (expectPosition stop what) := by
  refine inStep_pos.bind fun here => ?_
  split
  · exact inStep_failAt _ _
  · exact inStep_pure ()

theorem inStep_skipTo (stop : Nat) : InStep o shift (skipTo stop) :=
  inStep_pos.bind fun _ => inStep_read _

theorem inStep_valtype : InStep o shift valtype := by
  refine inStep_pos.bind fun start => (inStep_read _).bind fun byte => ?_
  split
  · exact inStep_pure _
  · exact inStep_failAt _ _

theorem inStep_valtypes : InStep o shift valtypes :=
  (inStep_read _).bind fun count => inStep_times inStep_valtype count

theorem inStep_typeIndex : InStep o shift typeIndex := by
  refine inStep_pos.bind fun start => (inStep_read _).bind fun index => (inStep_note _).bind fun _ =>
    mirrors_look fun _ _ abridges => ?_
  rw [abridges.types]
  split
  · exact inStep_pure _
  · exact inStep_failAt _ _

theorem inStep_limits : InStep o shift limits := by
  refine inStep_pos.bind fun start => (inStep_read _).bind fun flag => ?_
  split
  · exact (inStep_read _).bind fun min => inStep_pure _
  · split
    · exact (inStep_read _).bind fun min => (inStep_read _).bind fun max => inStep_pure _
    · exact inStep_failAt _ _

theorem inStep_globalType : InStep o shift globalType := by
  refine inStep_valtype.bind fun type => inStep_pos.bind fun start => (inStep_read _).bind fun flag => ?_
  split
  · exact inStep_pure _
  · exact inStep_failAt _ _

theorem inStep_blockType : InStep o shift blockType := by
  refine inStep_pos.bind fun start => (inStep_read _).bind fun byte => ?_
  split
  · exact inStep_pure _
  · split
    · exact inStep_pure _
    · exact inStep_failAt _ _

theorem inStep_zeroFlag : InStep o shift zeroFlag := by
  refine inStep_pos.bind fun start => (inStep_read _).bind fun flag => ?_
  split
  · exact inStep_failAt _ _
  · exact inStep_pure ()

theorem inStep_requireFinish (t : Terminator) : InStep o shift (requireFinish t) := by
  unfold requireFinish
  split
  · exact inStep_pos.bind fun _ => inStep_failAt _ _
  · exact inStep_pure ()

/-! ## Instructions -/

/-- Steps that give nodes whose labels are moved. -/
abbrev MirrorsIn (o : DecoderOptions) (shift : String → Int) (V : α → α → Prop) (m : DecodeM α) : Prop :=
  Mirrors (Abridges o shift) V m m

theorem mirrors_label (stem : String) : MirrorsIn o shift (Identifier.Moved shift) (label stem) := by
  intro d d' abridges
  refine .ok ⟨stem, _, _, rfl, rfl, abridges.names stem⟩ { abridges with names := fun other => ?_ }
  by_cases same : other = stem
  · subst same
    show ((d.names.unique other).2.count other : Int) = (d'.names.unique other).2.count other + shift other
    rw [NameGenerator.count_unique_self, NameGenerator.count_unique_self]
    have := abridges.names other
    omega
  · show ((d.names.unique stem).2.count other : Int) = (d'.names.unique stem).2.count other + shift other
    rw [NameGenerator.count_unique_of_ne _ same, NameGenerator.count_unique_of_ne _ same]
    exact abridges.names other

theorem mirrors_simple (op : Opcode) : MirrorsIn o shift (Node.Moved shift) (simple op) := by
  have plain (op : Opcode) (args : List Node) (memArg : Option MemArg) :
      MirrorsIn o shift (Node.Moved shift) (pure (plain op args memArg)) := mirrors_pure (.instr ..)
  unfold simple
  split
  · exact plain _ _ _
  · exact plain _ _ _
  · refine (inStep_read _).after fun index => ?_
    split
    · exact mirrors_pure (.call _)
    · exact plain _ _ _
  · exact (inStep_read _).after fun count => (inStep_times (inStep_read _) _).after fun labels => plain _ _ _
  · refine inStep_pos.after fun start => (inStep_read _).after fun index => ?_
    refine mirrors_look fun _ _ abridges => ?_
    rw [abridges.types]
    split
    · exact mirrors_throw _
    · exact inStep_zeroFlag.after fun _ => mirrors_pure (.callIndirect _)
  · exact (inStep_read _).after fun align => (inStep_read _).after fun offset => plain _ _ _
  · exact inStep_zeroFlag.after fun _ => plain _ _ _
  · exact (inStep_read _).after fun value => plain _ _ _
  · exact (inStep_read _).after fun value => plain _ _ _
  · exact (inStep_read _).after fun bits => plain _ _ _
  · exact (inStep_read _).after fun bits => plain _ _ _

section Sequences

variable {fuel : Nat}
  (ih : ∀ depth, MirrorsIn o shift (fun r r' => Node.MovedIn shift r.1 r'.1 ∧ r'.2 = r.2)
    (instructions fuel depth))
include ih

theorem mirrors_closed (depth : Nat) : MirrorsIn o shift (Node.MovedIn shift) (closed fuel depth) := by
  refine Mirrors.bind (ih depth) fun (body, t) (body', t') ⟨moved, same⟩ => ?_
  obtain rfl : t' = t := same
  exact Mirrors.bind (inStep_requireFinish _) fun _ _ _ => mirrors_pure moved

theorem mirrors_alternative (depth : Nat) (terminator : Terminator) :
    MirrorsIn o shift (Node.MovedIn shift) (alternative fuel depth terminator) := by
  unfold alternative
  split
  · exact mirrors_closed ih _
  · exact mirrors_pure .nil

theorem mirrors_conditional (depth : Nat) (result : Option Valtype) :
    MirrorsIn o shift (Node.Moved shift) (conditional fuel depth result) := by
  refine Mirrors.bind (mirrors_label _) fun label label' labels => ?_
  refine Mirrors.bind (ih _) fun (consequent, t) (consequent', t') ⟨whenTrue, same⟩ => ?_
  obtain rfl : t' = t := same
  exact Mirrors.bind (mirrors_alternative ih _ _) fun _ _ whenFalse =>
    mirrors_pure (.ifElse labels whenTrue whenFalse result)

theorem mirrors_enclosed (depth : Nat) (byte : UInt8) (result : Option Valtype) :
    MirrorsIn o shift (Node.Moved shift) (enclosed fuel depth byte result) := by
  refine Mirrors.bind (mirrors_closed ih _) fun body body' inside => ?_
  split
  · exact Mirrors.bind (mirrors_label _) fun _ _ labels => mirrors_pure (.loop labels inside result)
  · exact Mirrors.bind (mirrors_label _) fun _ _ labels => mirrors_pure (.block labels inside result)

theorem mirrors_structured (depth start : Nat) (byte : UInt8) :
    MirrorsIn o shift (Node.Moved shift) (structured fuel depth start byte) := by
  have typed : MirrorsIn o shift (Node.Moved shift) (do
      let result ← blockType
      if byte = ifByte then conditional fuel depth result else enclosed fuel depth byte result) := by
    refine inStep_blockType.after fun result => ?_
    split
    · exact mirrors_conditional ih depth result
    · exact mirrors_enclosed ih depth byte result
  by_cases nested : maxNesting ≤ depth
  · simp only [structured, if_pos nested]
    exact (inStep_failAt _ _).after fun _ => typed
  · simp only [structured, if_neg nested]
    exact typed

theorem mirrors_instruction (depth start : Nat) (byte : UInt8) (op : Opcode) :
    MirrorsIn o shift (Node.Moved shift) (instruction fuel depth start byte op) := by
  unfold instruction
  split
  · exact mirrors_structured ih depth start byte
  · exact mirrors_simple op

end Sequences

theorem mirrors_instructions (fuel depth : Nat) : MirrorsIn o shift
    (fun r r' => Node.MovedIn shift r.1 r'.1 ∧ r'.2 = r.2) (instructions fuel depth) := by
  induction fuel generalizing depth with
  | zero => exact mirrors_fail _
  | succ fuel ih =>
    rw [instructions_succ]
    refine inStep_pos.after fun start => (inStep_read _).after fun byte => ?_
    split
    · exact mirrors_throw _
    · next op found =>
      refine (inStep_note _).after fun _ => ?_
      split
      · exact mirrors_pure ⟨.nil, rfl⟩
      · split
        · exact mirrors_pure ⟨.nil, rfl⟩
        · refine Mirrors.bind (mirrors_instruction ih _ _ _ _) fun _ _ first => ?_
          exact Mirrors.bind (ih depth) fun _ _ rest => mirrors_pure ⟨.cons first rest.1, rest.2⟩

theorem mirrors_expression : MirrorsIn o shift (Node.MovedIn shift) expression := by
  refine mirrors_look fun d d' abridges => ?_
  rw [abridges.reader]
  exact mirrors_closed (mirrors_instructions _) 0

theorem inStep_expression : InStep o unmoved expression := by
  have read : InStep o unmoved (expression >>= pure) :=
    Mirrors.bind mirrors_expression fun _ _ moved => mirrors_pure moved.eq.symm
  rwa [bind_pure] at read

/-! ## Entries -/

/-- A refusal before the rest of a step. -/
theorem mirrors_unless {V : α → α → Prop} {c : Prop} [Decidable c] {offset : Nat} {kind : DecodeErrorKind}
    {f f' : Unit → DecodeM α} (rest : Mirrors (Abridges o shift) V (f ()) (f' ())) :
    Mirrors (Abridges o shift) V (if c then failAt offset kind >>= f else f ())
      (if c then failAt offset kind >>= f' else f' ()) := by
  split
  · exact Mirrors.bind (inStep_failAt _ _) fun _ _ _ => rest
  · exact rest

theorem inStep_tableLimits : InStep o shift tableLimits :=
  inStep_pos.bind fun _ => (inStep_read _).bind fun _ => mirrors_unless inStep_limits

theorem inStep_imported : InStep o shift imported := by
  refine inStep_pos.bind fun start => (inStep_read _).bind fun byte => ?_
  split
  · exact inStep_typeIndex.bind fun s => inStep_pure _
  · exact inStep_tableLimits.bind fun l => inStep_pure _
  · exact inStep_limits.bind fun l => inStep_pure _
  · exact inStep_globalType.bind fun t => inStep_pure _
  · exact inStep_failAt _ _

theorem inStep_localRuns (total n : Nat) : InStep o shift (localRuns total n) := by
  induction n generalizing total with
  | zero => exact inStep_pure []
  | succ n ih =>
    have rest (total count : Nat) : InStep o shift (do
        let type ← valtype
        let rest ← localRuns total n
        return List.replicate count type ++ rest) :=
      inStep_valtype.bind fun type => (ih _).bind fun ts => inStep_pure _
    refine (inStep_read _).bind fun count => ?_
    dsimp only
    split
    · exact (inStep_read _).bind fun _ => rest _ _
    · exact rest _ _

theorem inStep_body (i size : Nat) : InStep o unmoved (body i size) :=
  (inStep_note _).bind fun _ => InStep.bind
    ((inStep_read _).bind fun runs => inStep_localRuns 0 runs) fun _ =>
      inStep_expression.bind fun _ => inStep_pure _

/-- The same entry, which is not a data segment. -/
def SameEntry (x x' : Entry) : Prop := x' = x ∧ x.home ≠ .data

/-- As long as no label has another number, the same entry is read. -/
theorem mirrors_entry {id : SectionId} (other : id ≠ .data) (i : Nat) :
    MirrorsIn o unmoved SameEntry (entry id i) := by
  have given (x : Entry) (home : x.home ≠ .data) : MirrorsIn o unmoved SameEntry (pure x) :=
    mirrors_pure ⟨rfl, home⟩
  cases id with
  | custom => exact mirrors_throw _
  | type =>
    exact inStep_pos.after fun start => (inStep_read _).after fun form => mirrors_unless <|
      (inStep_note _).after fun _ => inStep_valtypes.after fun params => inStep_valtypes.after fun results =>
        given _ nofun
  | imports =>
    exact (inStep_read _).after fun module => (inStep_read _).after fun name => (inStep_note _).after fun _ =>
      inStep_imported.after fun what => given _ nofun
  | function => exact inStep_typeIndex.after fun s => given _ nofun
  | table => exact inStep_tableLimits.after fun l => given _ nofun
  | memory => exact inStep_limits.after fun l => given _ nofun
  | global => exact inStep_globalType.after fun type => inStep_expression.after fun init => given _ nofun
  | exports =>
    refine (inStep_read _).after fun name => inStep_pos.after fun start => (inStep_read _).after fun byte =>
      (inStep_read _).after fun index => (inStep_note _).after fun _ => ?_
    split
    · exact mirrors_throw _
    · exact given _ nofun
  | start => exact (inStep_read _).after fun index => (inStep_note _).after fun _ => given _ nofun
  | element =>
    exact (inStep_read _).after fun target => inStep_expression.after fun offset =>
      InStep.after ((inStep_read _).bind fun count => inStep_times (inStep_read _) count) fun funcs =>
        given _ nofun
  | code =>
    exact (inStep_read _).after fun size => InStep.after
      (inStep_pos.bind fun start => (inStep_body i size).bind fun code =>
        (inStep_expectPosition _ _).bind fun _ => inStep_pure _) fun code => given _ nofun
  | data => exact absurd rfl other

/-- The same data segment, with the labels of its offset moved. -/
inductive MovedData (shift : String → Int) : Entry → Entry → Prop
  | mk (target : Nat) {offset offset' : List Node} (inside : Node.MovedIn shift offset offset')
    (values : List UInt8) : MovedData shift (.data target offset values) (.data target offset' values)

theorem mirrors_dataEntry (i : Nat) : MirrorsIn o shift (MovedData shift) (entry .data i) := by
  refine (inStep_read _).after fun target => inStep_pos.after fun start =>
    Mirrors.bind mirrors_expression fun offset offset' inside => ?_
  rw [inside.length_eq]
  refine mirrors_unless ?_
  exact Mirrors.bind (inStep_read _) fun count _ same => same ▸ Mirrors.bind (inStep_read _) fun values _ same =>
    same ▸ Mirrors.bind (inStep_note _) fun _ _ _ => mirrors_pure (MovedData.mk target inside values)

end Decode

/-! ## Entries that are recorded -/

section Record

variable {o : DecoderOptions} {shift : String → Int} {d d' : Decoder}

/-- An entry that is no data makes a field that is no data. -/
theorem Entry.kind_field {x : Entry} (other : x.home ≠ .data) {taken position : Nat} {node : Node}
    (given : x.field taken position = some node) : node.kind ≠ .data := by
  cases x with
  | data => exact absurd rfl other
  | func | exported | code => cases given
  | _ =>
    cases given
    exact nofun

theorem DecoderOptions.keeps_of_ne {node : Node} (other : node.kind ≠ .data) : o.keeps node = true := by
  rw [keeps, beq_eq_false_iff_ne.2 other, Bool.and_false, Bool.not_false]

/-- Entering the same kind of entry on both sides shifts no names further. -/
theorem Abridges.count_names (abridges : Abridges o shift d d') {x x' : Entry} (same : x'.stem? = x.stem?)
    (stem : String) : ((x.names d.names).count stem : Int) = (x'.names d'.names).count stem + shift stem := by
  rw [Entry.count_names, Entry.count_names, Entry.takes, Entry.takes, same]
  have := abridges.names stem
  split_ifs <;> omega

/-- Both decoders record an entry that has no labels with other numbers. -/
theorem Abridges.record (abridges : Abridges o unmoved d d') {x : Entry} (other : x.home ≠ .data) :
    Abridges o unmoved (x.record d) (x.record d') := by
  have count (stem : String) : d'.names.count stem = d.names.count stem := by
    have := abridges.names stem
    rw [unmoved] at this
    omega
  refine { abridges with
    names := abridges.count_names rfl
    types := congrArg (· ++ _) abridges.types
    functions := ?_
    tables := congrArg (· + _) abridges.tables
    memories := congrArg (· + _) abridges.memories
    globals := congrArg (· + _) abridges.globals
    code := fun all => congrArg (· ++ _) (abridges.code all)
    exports := congrArg (· ++ _) abridges.exports
    fields := ?_ }
  · show d'.functions ++ _ = d.functions ++ _
    rw [abridges.functions, count]
  · have here : ∀ node ∈ (x.field (d.names.count "table") d.tables).toList, node.kind ≠ .data :=
      fun node inside => x.kind_field other (Option.mem_toList.1 inside)
    show Node.OffsetsMoved unmoved ((d.fields ++ _).filter o.keeps) (d'.fields ++ _)
    rw [count, abridges.tables, List.filter_append, List.filter_eq_self.2 fun node inside =>
      DecoderOptions.keeps_of_ne (here node inside)]
    exact List.rel_append abridges.fields (Node.OffsetsMoved.of_forall here)

/-- Both decoders record a data segment. -/
theorem Abridges.recordData (abridges : Abridges o shift d d') (all : o.ignoreDataSection = false)
    {x x' : Entry} (moved : Decode.MovedData shift x x') : Abridges o shift (x.record d) (x'.record d') := by
  obtain ⟨target, inside, values⟩ := moved
  refine { abridges with
    names := abridges.count_names rfl
    types := congrArg (· ++ []) abridges.types
    functions := congrArg (· ++ []) abridges.functions
    tables := congrArg (· + 0) abridges.tables
    memories := congrArg (· + 0) abridges.memories
    globals := congrArg (· + 0) abridges.globals
    code := fun all => congrArg (· ++ []) (abridges.code all)
    exports := congrArg (· ++ []) abridges.exports
    fields := ?_ }
  show Node.OffsetsMoved shift ((d.fields ++ [_]).filter o.keeps) (d'.fields ++ [_])
  rw [List.filter_append, List.filter_cons_of_pos (by simp [DecoderOptions.keeps, all]), List.filter_nil]
  exact List.rel_append abridges.fields (.cons (.data _ inside values) .nil)

/-- An export that is in range on one side is so on the other. -/
theorem Abridges.admitted (abridges : Abridges o shift d d') {x : Entry} (admitted : Decode.Admitted d x) :
    Decode.Admitted d' x := by
  cases x with
  | exported name kind index =>
    have same : (Decode.available d' kind).2 = (Decode.available d kind).2 := by
      cases kind with
      | func => exact congrArg List.length abridges.functions
      | table => exact abridges.tables
      | memory => exact abridges.memories
      | global => exact abridges.globals
    exact Nat.lt_of_lt_of_eq admitted same.symm
  | _ => trivial

/-- Both decoders go on by an entry of a section that neither passes over.  Labels have other numbers in
data segments only. -/
theorem Abridges.step (abridges : Abridges o shift d d') {id : SectionId} (still : id ≠ .data → shift = unmoved)
    (all : id = .data → o.ignoreDataSection = false) {i : Nat} {e : Decoder}
    (ends : Decode.entryStep id i d = .ok () e) :
    ∃ e', Decode.entryStep id i d' = .ok () e' ∧ Abridges o shift e e' := by
  obtain ⟨x, t, reads, admitted, rfl⟩ := Decode.entryStep_eq_ok_iff.1 ends
  by_cases isData : id = .data
  · subst isData
    obtain ⟨x', t', reads', moved, there⟩ := (Decode.mirrors_dataEntry i).exists_ok abridges reads
    exact ⟨_, Decode.entryStep_eq_ok_iff.2 ⟨x', t', reads', nofun, rfl⟩, there.recordData (all rfl) moved⟩
  · obtain rfl := still isData
    obtain ⟨_, t', reads', ⟨rfl, other⟩, there⟩ := (Decode.mirrors_entry isData i).exists_ok abridges reads
    exact ⟨_, Decode.entryStep_eq_ok_iff.2
      ⟨_, t', reads', fun isExports => there.admitted (admitted isExports), rfl⟩, there.record other⟩

/-- The entries of a section are read in step. -/
theorem Abridges.forEach (abridges : Abridges o shift d d') {id : SectionId}
    (still : id ≠ .data → shift = unmoved) (all : id = .data → o.ignoreDataSection = false) {i n : Nat}
    {e : Decoder} (ends : Decode.forEach (Decode.entryStep id) i n d = .ok () e) :
    ∃ e', Decode.forEach (Decode.entryStep id) i n d' = .ok () e' ∧ Abridges o shift e e' := by
  induction n generalizing i d d' with
  | zero =>
    cases ends
    exact ⟨d', rfl, abridges⟩
  | succ n ih =>
    obtain ⟨⟨⟩, t, now, rest⟩ := run_bind_eq_ok_iff.1 ends
    obtain ⟨t', now', there⟩ := abridges.step still all now
    obtain ⟨e', rest', after⟩ := ih there rest
    exact ⟨e', run_bind_eq_ok_iff.2 ⟨_, t', now', rest'⟩, after⟩

end Record

end Binary

end WasmEngine
