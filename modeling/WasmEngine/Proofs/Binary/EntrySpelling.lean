import WasmEngine.Proofs.Binary.Entries

/-!
# Entries are spelled again

An entry that was read is written in no more bytes than it took, and those bytes are read as the same
entry up to the names of labels and the sizes of bodies.
-/

namespace WasmEngine.Binary

open Outcome Decode

/-! ## What is written of an entry -/

/-- The index that is written for a signature. -/
def position (T : List Signature) (s : Signature) : Nat :=
  ((T.map Signature.funcType).findIdx? (· == s.funcType)).getD 0

/-- A signature whose index is known and takes 32 bits. -/
def Known (T : List Signature) (s : Signature) : Prop :=
  Placed T s (position T s) ∧ position T s < UInt32.size

/-- What is written of the type of a table. -/
def tableBytes (l : Limits) : List UInt8 := anyFuncByte :: Encode.limits l

/-- What is written of the locals and instructions of a function. -/
def bodyBytes (T : List Signature) (c : CodeEntry) : List UInt8 :=
  localsBytes c.locals ++ expressionBytes T c.body

namespace Imported

/-- What is written of what an import brings in. -/
def bytes (T : List Signature) : Imported → List UInt8
  | func s => 0x00 :: Encode.u32 (position T s)
  | table l => 0x01 :: tableBytes l
  | memory l => 0x02 :: Encode.limits l
  | global t => 0x03 :: Encode.globalType t

/-- What an import brings in can be written and read again. -/
def Fine (T : List Signature) : Imported → Prop
  | func s => Known T s
  | table l | memory l => IsLimits l
  | global _ => True

end Imported

namespace Entry

/-- What is written of an entry in a module with some types. -/
def bytes (T : List Signature) : Entry → List UInt8
  | type s => Encode.funcType s.funcType
  | imported module name what => Write.name module ++ Write.name name ++ what.bytes T
  | func s => Encode.u32 (position T s)
  | table l => tableBytes l
  | memory l => Encode.limits l
  | global t init => Encode.globalType t ++ expressionBytes T init
  | exported name kind index => Write.name name ++ exportKindByte kind :: Encode.u32 index
  | start index => Encode.u32 index
  | elem target offset funcs =>
    Encode.u32 target ++ expressionBytes T offset ++ Encode.vector Encode.u32 funcs
  | code c => Write.byteVector (bodyBytes T c)
  | data target offset values =>
    Encode.u32 target ++ expressionBytes T offset ++ Write.byteVector values

/-- An entry can be written in a module with some types, and read again. -/
def Fine (T : List Signature) : Entry → Prop
  | type s => IsAnonymous s ∧ s.params.length < UInt32.size ∧ s.results.length < UInt32.size
  | imported module name what => Read.IsName module ∧ Read.IsName name ∧ what.Fine T
  | func s => Known T s
  | table l | memory l => IsLimits l
  | global _ init => IsExpression T init
  | exported name _ index => Read.IsName name ∧ index < UInt32.size
  | start index => index < UInt32.size
  | elem target offset funcs => target < UInt32.size ∧ IsExpression T offset ∧
    funcs.length < UInt32.size ∧ ∀ f ∈ funcs, f < UInt32.size
  | code c => c.locals.length ≤ maxLocals ∧ (Encode.runs c.locals).length < UInt32.size ∧
    IsExpression T c.body ∧ (bodyBytes T c).length < UInt32.size
  | data target offset values => target < UInt32.size ∧ IsExpression T offset ∧
    offset.length = 1 ∧ values.length < UInt32.size

/-- An entry without the names of labels and the sizes of bodies. -/
def plain : Entry → Entry
  | global t init => global t (Node.unlabelledIn init)
  | elem target offset funcs => elem target (Node.unlabelledIn offset) funcs
  | code c => code ⟨Node.unlabelledIn c.body, c.locals, 0⟩
  | data target offset values => data target (Node.unlabelledIn offset) values
  | x => x

/-- Every label inside an entry was generated for its kind of block. -/
def Labelled : Entry → Prop
  | global _ init => Node.LabelledIn init
  | elem _ offset _ => Node.LabelledIn offset
  | code c => Node.LabelledIn c.body
  | data _ offset _ => Node.LabelledIn offset
  | _ => True

/-- An entry of a section that is written in some number of bytes at most. -/
def Sized (T : List Signature) (id : SectionId) (x : Entry) (n : Nat) : Prop :=
  x.home = id ∧ x.Fine T ∧ x.Labelled ∧ (x.bytes T).length ≤ n

end Entry

namespace Decode

variable {types : List Signature} {α : Type}

/-! ## Steps of a declared length -/

/-- Comparing the position has no effect but to fail. -/
theorem expectPosition_eq_ok_iff {stop : Nat} {what : String} {d d' : Decoder} :
    expectPosition stop what d = .ok () d' ↔ d.reader.pos = stop ∧ d' = d := by
  show (if d.reader.pos != stop then failAt d.reader.pos (.sizeMismatch what stop d.reader.pos)
    else pure ()) d = .ok () d' ↔ _
  by_cases same : d.reader.pos = stop
  · have never : ¬ (d.reader.pos != stop) = true := by simp [same]
    rw [if_neg never]
    constructor
    · intro ends
      cases ends
      exact ⟨same, rfl⟩
    · rintro ⟨-, rfl⟩
      rfl
  · have differ : (d.reader.pos != stop) = true := by simp [same]
    rw [if_pos differ]
    constructor
    · intro ends
      cases ends
    · rintro ⟨other, -⟩
      exact absurd other same

theorem expectPosition_eq_ok {stop : Nat} {d : Decoder} (stops : d.reader.pos = stop) (what : String) :
    expectPosition stop what d = .ok () d := expectPosition_eq_ok_iff.2 ⟨stops, rfl⟩

theorem OnlyReads.pos_eq {n : Nat} {d d' : Decoder} (only : OnlyReads n d d') :
    d'.reader.pos = d.reader.pos + n := by
  rw [only.reader_eq]
  rfl

/-- What stands in a frame takes just the size of the frame. -/
theorem takes_framed {P : α → Nat → Prop} {m : DecodeM α} {size : Nat} {what : String}
    (first : Takes types P m) : Takes types (fun a n => P a n ∧ n = size) (framed size what m) := by
  intro d a d' same ends
  obtain ⟨start, t, here, rest⟩ := run_bind_eq_ok_iff.1 ends
  cases here
  obtain ⟨b, e, inner, rest⟩ := run_bind_eq_ok_iff.1 rest
  obtain ⟨n, only, holds⟩ := first d b e same inner
  obtain ⟨_, t', stop, given⟩ := run_bind_eq_ok_iff.1 rest
  obtain ⟨stops, moved⟩ := expectPosition_eq_ok_iff.1 stop
  obtain ⟨rfl, rfl⟩ := run_pure_eq_ok_iff.1 given
  subst moved
  rw [only.pos_eq] at stops
  exact ⟨n, only, holds, by omega⟩

theorem rereads_framed {bytes : List UInt8} {p : α → Prop} {m : DecodeM α} {what : String}
    (first : Rereads types bytes m p) : Rereads types bytes (framed bytes.length what m) p := by
  intro d rest same here
  obtain ⟨a, d', ends, only, holds⟩ := first d rest same here
  have stop := expectPosition_eq_ok only.pos_eq what
  refine ⟨a, d', ?_, only, holds⟩
  exact (bind_ok ends).trans (bind_ok stop)

/-! ## Entries of each section -/

variable {later : List Signature}

section Takes

/-- The limits of a table are spelled in no more bytes than were read. -/
theorem takes_tableLimits :
    Takes types (fun l n => IsLimits l ∧ (tableBytes l).length ≤ n) tableLimits := by
  refine takes_pos.after fun start _ => takes_byte.bind fun b n one => ?_
  split
  · exact takes_refused
  · refine takes_limits.mono fun l k ⟨holds, size⟩ => ⟨holds, ?_⟩
    rw [tableBytes, List.length_cons]
    omega

/-- A type is read from at least the bytes that spell it. -/
theorem takes_type (i : Nat) : Takes types (Entry.Sized later .type) (entry .type i) := by
  refine takes_pos.after fun start _ => takes_byte.bind fun b n one => ?_
  split
  · exact takes_refused
  · refine (takes_note _).after fun _ _ => takes_valtypes.bind fun params k ⟨fits, size⟩ =>
      takes_valtypes.bind fun results l ⟨fits', size'⟩ =>
        takes_pure ⟨rfl, ⟨?_, ?_, fits'⟩, trivial, ?_⟩
    · simp [IsAnonymous, Signature.paramTypes, Function.comp_def, Param.anonymous]
    · rwa [List.length_map]
    · have same : (params.map Param.anonymous).map Param.valtype = params := by
        simp [Function.comp_def, Param.anonymous]
      simp only [Entry.bytes, Encode.funcType, Signature.funcType, Signature.paramTypes, same,
        List.length_cons, List.length_append]
      omega

theorem takes_table (i : Nat) : Takes types (Entry.Sized later .table) (entry .table i) :=
  takes_tableLimits.bind fun _ _ ⟨holds, size⟩ => takes_pure ⟨rfl, holds, trivial, size⟩

theorem takes_memory (i : Nat) : Takes types (Entry.Sized later .memory) (entry .memory i) :=
  takes_limits.bind fun _ _ ⟨holds, size⟩ => takes_pure ⟨rfl, holds, trivial, size⟩

theorem takes_exports (i : Nat) : Takes types (Entry.Sized later .exports) (entry .exports i) := by
  refine takes_name.bind fun name n ⟨fits, size⟩ => takes_pos.after fun start _ =>
    takes_byte.bind fun b k one => takes_u32.bind fun index l ⟨fits', size'⟩ =>
      (takes_note _).after fun _ _ => ?_
  split
  · exact takes_failAt
  · refine takes_pure ⟨rfl, ⟨fits, fits'⟩, trivial, ?_⟩
    rw [Entry.bytes, List.length_append, List.length_cons]
    omega

theorem takes_start (i : Nat) : Takes types (Entry.Sized later .start) (entry .start i) :=
  takes_u32.bind fun _ _ ⟨fits, size⟩ => (takes_note _).after fun _ _ =>
    takes_pure ⟨rfl, fits, trivial, size⟩

variable (extends_ : types <+: later) (anonymous : ∀ s ∈ later, IsAnonymous s)
include extends_ anonymous

/-- The type of a signature is spelled in no more bytes than its number was read from. -/
theorem takes_signature :
    Takes types (fun s n => Known later s ∧ (Encode.u32 (position later s)).length ≤ n) typeIndex := by
  refine (takes_typeIndex extends_ anonymous).mono fun s n ⟨i, placed, fits, size⟩ => ?_
  have same : position later s = i := by rw [position, placed.1, Option.getD_some]
  rw [Known, same]
  exact ⟨⟨placed, fits⟩, size⟩

/-- What is imported is spelled in no more bytes than were read. -/
theorem takes_imported :
    Takes types (fun what n => what.Fine later ∧ (what.bytes later).length ≤ n) imported := by
  refine takes_pos.after fun start _ => takes_byte.bind fun b n one => ?_
  subst one
  split
  · refine (takes_signature extends_ anonymous).bind fun s k taken => takes_pure ⟨taken.1, ?_⟩
    rw [Imported.bytes, List.length_cons]
    exact Nat.add_comm 1 k ▸ Nat.succ_le_succ taken.2
  · refine takes_tableLimits.bind fun l k taken => takes_pure ⟨taken.1, ?_⟩
    rw [Imported.bytes, List.length_cons]
    exact Nat.add_comm 1 k ▸ Nat.succ_le_succ taken.2
  · refine takes_limits.bind fun l k taken => takes_pure ⟨taken.1, ?_⟩
    rw [Imported.bytes, List.length_cons]
    exact Nat.add_comm 1 k ▸ Nat.succ_le_succ taken.2
  · refine takes_globalType.bind fun t k size => takes_pure ⟨trivial, ?_⟩
    rw [Imported.bytes, List.length_cons]
    omega
  · exact takes_failAt

/-- A body is spelled in no more bytes than were read: equal neighbours among the locals are put together. -/
theorem takes_body (i size : Nat) : Takes types (fun c n => c.locals.length ≤ maxLocals ∧
    (Encode.runs c.locals).length < UInt32.size ∧ IsExpression later c.body ∧
      Node.LabelledIn c.body ∧ (bodyBytes later c).length ≤ n) (body i size) := by
  refine (takes_note _).after fun _ _ => takes_locals.bind fun ts n ⟨few, fits, size⟩ =>
    (takes_expression extends_ anonymous).bind fun is k ⟨holds, labelled, size'⟩ =>
      takes_pure ⟨few, fits, holds, labelled, ?_⟩
  simp only [bodyBytes, List.length_append]
  omega

theorem takes_imports (i : Nat) : Takes types (Entry.Sized later .imports) (entry .imports i) := by
  refine takes_name.bind fun module n ⟨fits, size⟩ => takes_name.bind fun name k ⟨fits', size'⟩ =>
    (takes_note _).after fun _ _ => (takes_imported extends_ anonymous).bind
      fun what l ⟨fine, size''⟩ => takes_pure ⟨rfl, ⟨fits, fits', fine⟩, trivial, ?_⟩
  rw [Entry.bytes, List.length_append, List.length_append]
  omega

theorem takes_function (i : Nat) : Takes types (Entry.Sized later .function) (entry .function i) :=
  (takes_signature extends_ anonymous).bind fun _ _ ⟨known, size⟩ =>
    takes_pure ⟨rfl, known, trivial, size⟩

theorem takes_global (i : Nat) : Takes types (Entry.Sized later .global) (entry .global i) := by
  refine takes_globalType.bind fun t n size => (takes_expression extends_ anonymous).bind
    fun init k ⟨holds, labelled, size'⟩ => takes_pure ⟨rfl, holds, labelled, ?_⟩
  rw [Entry.bytes, List.length_append]
  omega

theorem takes_element (i : Nat) : Takes types (Entry.Sized later .element) (entry .element i) := by
  have numbers : Takes types (fun f n => f < UInt32.size ∧ (Encode.u32 f).length ≤ n) (read .u32) :=
    takes_u32
  refine takes_u32.bind fun target n ⟨fits, size⟩ => (takes_expression extends_ anonymous).bind
    fun offset k ⟨holds, labelled, size'⟩ =>
      (takes_vector numbers).bind fun funcs l ⟨fits', all, size''⟩ =>
        takes_pure ⟨rfl, ⟨fits, holds, fits', all⟩, labelled, ?_⟩
  rw [Entry.bytes, List.length_append, List.length_append]
  omega

theorem takes_code (i : Nat) : Takes types (Entry.Sized later .code) (entry .code i) := by
  refine takes_u32.bind fun size n ⟨fits, short⟩ =>
    (takes_framed (takes_body extends_ anonymous i size)).bind
      fun c k ⟨⟨few, fewRuns, holds, labelled, within⟩, exactly⟩ => ?_
  subst exactly
  have fits' := Nat.lt_of_le_of_lt within fits
  refine takes_pure ⟨rfl, ⟨few, fewRuns, holds, fits'⟩, labelled, ?_⟩
  have shorter := Leb128.length_encodeUnsigned_mono within
  rw [u32_eq fits] at short
  simp only [Entry.bytes, Write.byteVector, Write.unsigned, Nat.mod_eq_of_lt fits',
    List.length_append] at *
  omega

theorem takes_data (i : Nat) : Takes types (Entry.Sized later .data) (entry .data i) := by
  refine takes_u32.bind fun target n ⟨fits, size⟩ => takes_pos.after fun start _ =>
    (takes_expression extends_ anonymous).bind fun offset k ⟨holds, labelled, size'⟩ => ?_
  by_cases single : offset.length = 1
  · simp only [single, bne_self_eq_false, Bool.false_eq_true, if_false]
    refine takes_u32.bind fun count l ⟨fits', size''⟩ =>
      (takes_read (Read.gives_bytes count)).bind fun values m ⟨length, taken⟩ =>
        (takes_note _).after fun _ _ =>
          takes_pure ⟨rfl, ⟨fits, holds, single, length ▸ fits'⟩, labelled, ?_⟩
    rw [u32_eq fits'] at size''
    simp only [Entry.bytes, Write.byteVector, length, Nat.mod_eq_of_lt fits', List.length_append]
    omega
  · have several : (offset.length != 1) = true := by simpa using single
    simp only [several, if_true]
    exact takes_refused

/-- An entry that was read can be written in the module that its types belong to. -/
theorem takes_entry (id : SectionId) (i : Nat) :
    Takes types (Entry.Sized later id) (entry id i) := by
  cases id with
  | custom => exact takes_failAt
  | type => exact takes_type i
  | imports => exact takes_imports extends_ anonymous i
  | function => exact takes_function extends_ anonymous i
  | table => exact takes_table i
  | memory => exact takes_memory i
  | global => exact takes_global extends_ anonymous i
  | exports => exact takes_exports i
  | start => exact takes_start i
  | element => exact takes_element extends_ anonymous i
  | code => exact takes_code extends_ anonymous i
  | data => exact takes_data extends_ anonymous i

end Takes

section Rereads

theorem rereads_tableLimits {l : Limits} (holds : IsLimits l) :
    Rereads types (tableBytes l) tableLimits (· = l) :=
  rereads_pos.after fun _ _ => (rereads_byte anyFuncByte).then (rereads_limits holds)

theorem rereads_signature {s : Signature} (known : Known types s) :
    Rereads types (Encode.u32 (position types s)) typeIndex (· = s) :=
  rereads_typeIndex known.1 known.2

theorem exportKind?_exportKindByte (kind : ExportKind) :
    exportKind? (exportKindByte kind) = some kind := by
  cases kind <;> rfl

theorem rereads_imported {what : Imported} (fine : what.Fine types) :
    Rereads types (what.bytes types) imported (· = what) := by
  refine rereads_pos.after fun start _ => ?_
  cases what with
  | func s => exact (rereads_byte 0).then ((rereads_signature fine).map fun _ same => same ▸ rfl)
  | table l => exact (rereads_byte 1).then ((rereads_tableLimits fine).map fun _ same => same ▸ rfl)
  | memory l => exact (rereads_byte 2).then ((rereads_limits fine).map fun _ same => same ▸ rfl)
  | global t => exact (rereads_byte 3).then ((rereads_globalType t).map fun _ same => same ▸ rfl)

theorem rereads_body (i size : Nat) {c : CodeEntry} (few : c.locals.length ≤ maxLocals)
    (fewRuns : (Encode.runs c.locals).length < UInt32.size) (holds : IsExpression types c.body) :
    Rereads types (bodyBytes types c) (body i size) fun c' =>
      (Entry.code c').plain = (Entry.code c).plain := by
  refine (rereads_note _).after fun _ _ => (rereads_locals few fewRuns).then ?_
  exact holds.rereads.map fun _ same => by simp only [Entry.plain, same]

theorem rereads_type {s : Signature} (fine : (Entry.type s).Fine later) (i : Nat) :
    Rereads types ((Entry.type s).bytes later) (entry .type i) (· = .type s) := by
  obtain ⟨anonymous, fits, fits'⟩ := fine
  have same : (⟨s.paramTypes.map .anonymous, s.results⟩ : Signature) = s := by rw [← anonymous]
  have few : s.paramTypes.length < UInt32.size := by rwa [Signature.paramTypes, List.length_map]
  refine rereads_pos.after fun start _ => (rereads_byte funcTypeByte).then
    ((rereads_note _).after fun _ _ => (rereads_valtypes few).then
      ((rereads_valtypes fits').map fun results same' => ?_))
  rw [same']
  exact congrArg Entry.type same

theorem rereads_elem {target : Nat} {offset : List Node} {funcs : List Nat}
    (fine : (Entry.elem target offset funcs).Fine types) (i : Nat) :
    Rereads types ((Entry.elem target offset funcs).bytes types) (entry .element i) fun y =>
      y.plain = (Entry.elem target offset funcs).plain := by
  obtain ⟨fits, holds, fits', all⟩ := fine
  have numbers : Rereads types (Encode.vector Encode.u32 funcs) _ _ :=
    rereads_vector (fun f => rereads_u32) fits' all
  rw [Entry.bytes, List.append_assoc]
  exact (rereads_u32 fits).then (holds.rereads.bind fun other same =>
    numbers.map fun _ same' => by simp only [Entry.plain, same, same'])

theorem rereads_code {c : CodeEntry} (fine : (Entry.code c).Fine types) (i : Nat) :
    Rereads types ((Entry.code c).bytes types) (entry .code i) fun y =>
      y.plain = (Entry.code c).plain := by
  obtain ⟨few, fewRuns, holds, fits⟩ := fine
  rw [Entry.bytes, Write.byteVector, Nat.mod_eq_of_lt fits, ← u32_eq fits]
  exact (rereads_u32 fits).then
    ((rereads_framed (rereads_body i _ few fewRuns holds)).map fun _ same => same)

theorem rereads_data {target : Nat} {offset : List Node} {values : List UInt8}
    (fine : (Entry.data target offset values).Fine types) (i : Nat) :
    Rereads types ((Entry.data target offset values).bytes types) (entry .data i) fun y =>
      y.plain = (Entry.data target offset values).plain := by
  obtain ⟨fits, holds, single, fits'⟩ := fine
  rw [Entry.bytes, Write.byteVector, Nat.mod_eq_of_lt fits', ← u32_eq fits', List.append_assoc]
  refine (rereads_u32 fits).then (rereads_pos.after fun start _ => holds.rereads.bind
    fun other same => ?_)
  have single' : other.length = 1 := by
    rw [← Node.length_unlabelledIn, same, Node.length_unlabelledIn, single]
  simp only [single', bne_self_eq_false, Bool.false_eq_true, if_false]
  refine (rereads_u32 fits').then ((rereads_read (Read.spells_bytes values)).last
    ((rereads_note _).after fun _ _ => rereads_pure ?_))
  simp only [Entry.plain, same]

/-- What is written of an entry is read as the entry up to the names of labels and the sizes of
bodies.  Only a type may be read before all types are known. -/
theorem rereads_entry {x : Entry} (fine : x.Fine later) (known : x.home = .type ∨ types = later)
    (i : Nat) : Rereads types (x.bytes later) (entry x.home i) fun y => y.plain = x.plain := by
  cases x with
  | type s => exact (rereads_type fine i).mono fun _ same => same ▸ rfl
  | imported module name what =>
    obtain rfl := known.resolve_left SectionId.noConfusion
    obtain ⟨fits, fits', fine⟩ := fine
    rw [Entry.bytes, List.append_assoc]
    exact (rereads_name fits).then ((rereads_name fits').then ((rereads_note _).after fun _ _ =>
      (rereads_imported fine).map fun _ same => same ▸ rfl))
  | func s =>
    obtain rfl := known.resolve_left SectionId.noConfusion
    exact (rereads_signature fine).map fun _ same => same ▸ rfl
  | table l => exact (rereads_tableLimits fine).map fun _ same => same ▸ rfl
  | memory l => exact (rereads_limits fine).map fun _ same => same ▸ rfl
  | global t init =>
    obtain rfl := known.resolve_left SectionId.noConfusion
    exact (rereads_globalType t).then (fine.rereads.map fun _ same => by simp only [Entry.plain, same])
  | exported name kind index =>
    obtain ⟨fits, fits'⟩ := fine
    refine (rereads_name fits).then (rereads_pos.after fun start _ =>
      (rereads_byte (exportKindByte kind)).then ((rereads_u32 fits').last
        ((rereads_note _).after fun _ _ => ?_)))
    rw [exportKind?_exportKindByte]
    exact rereads_pure rfl
  | start index =>
    exact (rereads_u32 fine).last ((rereads_note _).after fun _ _ => rereads_pure rfl)
  | elem target offset funcs =>
    obtain rfl := known.resolve_left SectionId.noConfusion
    exact rereads_elem fine i
  | code c =>
    obtain rfl := known.resolve_left SectionId.noConfusion
    exact rereads_code fine i
  | data target offset values =>
    obtain rfl := known.resolve_left SectionId.noConfusion
    exact rereads_data fine i

end Rereads

end Decode

end WasmEngine.Binary
