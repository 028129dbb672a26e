import WasmEngine.Proofs.Binary.Offsets
import WasmEngine.Proofs.Binary.SectionReading

/-!
# Sections cover the input

Each round of a recursion of decoding takes a byte, so the bound on it is never what ends it (`Settles`).
Decoding a byte string ends, and its sections lie one after another from the header to the end of the
input (`Tiles`).  What is not a module is refused at an offset of the input (`decode_tiles`).
-/

namespace WasmEngine.Binary.Decode

open Outcome

variable {ι α β : Type} {n fuel fuel' : Nat}

/-- A bounded recursion does the same under every bound that is greater than the number of bytes left. -/
def Settles (loop : Nat → DecodeM α) : Prop :=
  ∀ d fuel, d.reader.remaining < fuel → loop fuel d = loop (d.reader.remaining + 1) d

/-- Two computations that do the same where fewer than `n` bytes are left. -/
def Agree (n : Nat) (m m' : DecodeM α) : Prop := ∀ d, d.reader.remaining < n → m d = m' d

theorem Agree.refl (n : Nat) (m : DecodeM α) : Agree n m m := fun _ _ => rfl

/-- What follows a step that only reads is left with no more bytes. -/
theorem Agree.bind {m m' : DecodeM α} {f f' : α → DecodeM β} (same : Agree n m m')
    (reading : Reading m) (rest : ∀ a, Agree n (f a) (f' a)) : Agree n (m >>= f) (m' >>= f') := by
  intro d few
  cases ends : m d with
  | ok a e =>
    obtain ⟨k, -, names, trace, rfl, -⟩ := reading d a e ends
    rw [bind_ok ends, bind_ok ((same d few).symm.trans ends)]
    refine rest a _ (Nat.lt_of_le_of_lt ?_ few)
    simp only [Reader.remaining, Reader.advance, List.length_drop]
    exact Nat.sub_le _ _
  | error x e => rw [bind_error ends, bind_error ((same d few).symm.trans ends)]

/-- What follows a step that takes a byte is left with fewer bytes. -/
theorem bind_eq_of_agree {m : DecodeM α} {f f' : α → DecodeM β} {d : Decoder}
    (proceeds : Proceeds False d.reader.pos (d.reader.pos + 1) m)
    (rest : ∀ a, Agree d.reader.remaining (f a) (f' a)) : (m >>= f) d = (m >>= f') d := by
  cases ends : m d with
  | ok a e =>
    obtain ⟨later, further, -⟩ := proceeds.of_ok (Nat.le_refl _) ends
    have size := later.size_eq
    rw [bind_ok ends, bind_ok ends]
    refine rest a e ?_
    simp only [Reader.size, Reader.remaining] at *
    omega
  | error x e => rw [bind_error ends, bind_error ends]

/-- A recursion settles if a round of it looks only at what the recursion does with fewer bytes. -/
theorem settles_of_round {loop : Nat → ι → DecodeM α}
    (round : ∀ fuel fuel' i d, (∀ j, Agree d.reader.remaining (loop fuel j) (loop fuel' j)) →
      loop (fuel + 1) i d = loop (fuel' + 1) i d) (i : ι) : Settles (loop · i) := by
  have same (n : Nat) : ∀ fuel fuel', n ≤ fuel → n ≤ fuel' →
      ∀ j, Agree n (loop fuel j) (loop fuel' j) := by
    induction n with
    | zero => exact fun _ _ _ _ _ d none_ => absurd none_ (Nat.not_lt_zero _)
    | succ n ih =>
      intro fuel fuel' enough enough' j d few
      obtain ⟨k, rfl⟩ : ∃ k, fuel = k + 1 := ⟨fuel - 1, by omega⟩
      obtain ⟨k', rfl⟩ : ∃ k, fuel' = k + 1 := ⟨fuel' - 1, by omega⟩
      refine round k k' j d fun j' e fewer => ?_
      exact ih k k' (by omega) (by omega) j' e (by omega)
  exact fun d fuel enough => same _ fuel _ enough (Nat.le_refl _) i d (Nat.lt_succ_self _)

/-! ## Sequences of instructions -/

section Sequences

variable (ih : ∀ depth, Agree n (instructions fuel depth) (instructions fuel' depth))
include ih

/-- A closed sequence does not depend on the bound if the sequences in it do not. -/
theorem agree_closed (depth : Nat) : Agree n (closed fuel depth) (closed fuel' depth) :=
  (ih depth).bind (reading_instructions _ _) fun _ => .refl n _

theorem agree_alternative (depth : Nat) (terminator : Terminator) :
    Agree n (alternative fuel depth terminator) (alternative fuel' depth terminator) := by
  unfold alternative
  split
  · exact agree_closed ih _
  · exact .refl n _

/-- Nor does a conditional. -/
theorem agree_conditional (depth : Nat) (result : Option Valtype) :
    Agree n (conditional fuel depth result) (conditional fuel' depth result) :=
  (Agree.refl n _).bind (reading_label (by decide) (by decide)) fun _ =>
    (ih _).bind (reading_instructions _ _) fun _ =>
      (agree_alternative ih _ _).bind (reading_alternative (reading_instructions _) _ _) fun _ =>
        .refl n _

/-- Nor does a block or a loop. -/
theorem agree_enclosed (depth : Nat) (byte : UInt8) (result : Option Valtype) :
    Agree n (enclosed fuel depth byte result) (enclosed fuel' depth byte result) :=
  (agree_closed ih _).bind (reading_closed (reading_instructions _) _) fun _ => .refl n _

/-- A block is refused for its depth before anything of it is read. -/
theorem agree_instruction (depth start : Nat) (byte : UInt8) (op : Opcode) :
    Agree n (instruction fuel depth start byte op) (instruction fuel' depth start byte op) := by
  have typed : Agree n
      (do
        let result ← blockType
        if byte = ifByte then conditional fuel depth result else enclosed fuel depth byte result)
      (do
        let result ← blockType
        if byte = ifByte then conditional fuel' depth result
        else enclosed fuel' depth byte result) := by
    refine (Agree.refl n _).bind reading_blockType fun result => ?_
    split
    · exact agree_conditional ih depth result
    · exact agree_enclosed ih depth byte result
  unfold instruction structured
  split
  · by_cases nested : maxNesting ≤ depth
    · simp only [if_pos nested]
      exact fun d _ => rfl
    · simp only [if_neg nested]
      exact typed
  · exact .refl n _

end Sequences

/-- No sequence of instructions is cut short by the bound on its length. -/
theorem settles_instructions (depth : Nat) : Settles (instructions · depth) := by
  refine settles_of_round (fun fuel fuel' depth d ih => ?_) depth
  rw [instructions_succ, instructions_succ, bind_ok (pos_eq d), bind_ok (pos_eq d)]
  refine bind_eq_of_agree proceeds_byte_succ fun byte => ?_
  split
  · exact .refl _ _
  · refine (Agree.refl _ _).bind (reading_note _) fun _ => ?_
    split
    · exact .refl _ _
    · split
      · exact .refl _ _
      · exact (agree_instruction ih _ _ _ _).bind
          (reading_instruction (reading_instructions _) _ _ _ _) fun node =>
            (ih depth).bind (reading_instructions _ _) fun _ => .refl _ _

/-! ## Sections and parts of sections -/

/-- The parts of a name section are read up to its end. -/
theorem settles_nameSubsections (stop : Nat) : Settles (nameSubsections stop) := by
  refine @settles_of_round Unit _ (fun fuel _ => nameSubsections stop fuel) (fun fuel fuel' _ d ih => ?_) ()
  rw [nameSubsections, nameSubsections, bind_ok (pos_eq d), bind_ok (pos_eq d)]
  split
  · exact bind_eq_of_agree proceeds_nameSubsection fun _ => ih ()
  · rfl

/-- Sections are read up to the end of the input. -/
theorem settles_readSections : Settles readSections := by
  refine @settles_of_round Unit _ (fun fuel _ => readSections fuel) (fun fuel fuel' _ d ih => ?_) ()
  rw [readSections, readSections, bind_ok (get_eq d), bind_ok (get_eq d)]
  split
  · exact bind_eq_of_agree proceeds_readSection fun _ => ih ()
  · rfl

end WasmEngine.Binary.Decode

namespace WasmEngine.Binary

open Outcome Decode

/-! ## Sections in a row -/

/-- A section that begins where `s` says: its number, its size in `width` bytes, and what `s` records
of them. -/
structure IsSection (bytes : List UInt8) (id : SectionId) (width size : Nat) (s : SectionMetadata) :
    Prop where
  number : ∃ b, bytes[s.startOffset]? = some b ∧ SectionId.ofNat? b.toNat = some id
  declared : Leb128.decodeUnsigned 32 (bytes.drop (s.startOffset + 1)) = .ok (size, width)
  some_ : 1 ≤ width
  few : width ≤ 5
  title : s.title = id.name
  size : s.size = .ofInt size

/-- Sections that cover some bytes from an offset on: each begins where the one before it ends, and the
last ends with the bytes. -/
inductive Tiles (bytes : List UInt8) : Nat → List SectionId → List SectionMetadata → Prop
  | done : Tiles bytes bytes.length [] []
  | more {id : SectionId} {width size : Nat} {s : SectionMetadata} {ids : List SectionId}
    {ss : List SectionMetadata} (here : IsSection bytes id width size s)
    (rest : Tiles bytes (s.startOffset + 1 + width + size) ids ss) :
    Tiles bytes s.startOffset (id :: ids) (s :: ss)

/-- Items that stand one after the other from one place to another. -/
inductive Row {α : Type} (R : Reader → Reader → α → Prop) : Reader → Reader → List α → Prop
  | nil (r : Reader) : Row R r r []
  | cons {r mid r' : Reader} {a : α} {as : List α} (first : R r mid a) (rest : Row R mid r' as) :
    Row R r r' (a :: as)

/-- A count and as many items between two offsets. -/
def Filled {α : Type} (bytes : List UInt8) (R : Reader → Reader → α → Prop) (begin stop : Nat) (as : List α) : Prop :=
  ∃ r, Read.u32 ((Reader.start bytes).advance begin) = .ok as.length r ∧
    Row R r ((Reader.start bytes).advance stop) as

/-- The items in the section of a number, which is one of the sections or not there at all. -/
inductive HasEntries {α : Type} (bytes : List UInt8) (id : SectionId) (R : Reader → Reader → α → Prop) :
    List SectionId → List SectionMetadata → List α → Prop
  | absent : HasEntries bytes id R [] [] []
  | here {width size : Nat} {s : SectionMetadata} {ids : List SectionId} {ss : List SectionMetadata}
    {as : List α} (isSection : IsSection bytes id width size s)
    (filled : Filled bytes R (s.startOffset + 1 + width) (s.startOffset + 1 + width + size) as)
    (single : id ∉ ids) : HasEntries bytes id R (id :: ids) (s :: ss) as
  | later {other : SectionId} {s : SectionMetadata} {ids : List SectionId} {ss : List SectionMetadata}
    {as : List α} (ne : other ≠ id) (rest : HasEntries bytes id R ids ss as) :
    HasEntries bytes id R (other :: ids) (s :: ss) as

/-- Sections other than custom ones come in their order, from `next` on. -/
def Ordered (next : Nat) (ids : List SectionId) : Prop :=
  (∀ id ∈ ids, id ≠ .custom → next ≤ id.toNat) ∧
    (ids.filter (· ≠ .custom)).Pairwise (·.toNat < ·.toNat)

theorem ordered_nil (next : Nat) : Ordered next [] := ⟨nofun, .nil⟩

/-- A custom section may stand anywhere. -/
theorem Ordered.custom {next : Nat} {ids : List SectionId} (ordered : Ordered next ids) :
    Ordered next (.custom :: ids) :=
  ⟨List.forall_mem_cons.2 ⟨fun some_ => absurd rfl some_, ordered.1⟩, ordered.2⟩

/-- A section may stand before later ones. -/
theorem Ordered.cons {next : Nat} {id : SectionId} {ids : List SectionId} (some_ : id ≠ .custom)
    (le : next ≤ id.toNat) (ordered : Ordered (id.toNat + 1) ids) : Ordered next (id :: ids) := by
  refine ⟨List.forall_mem_cons.2 ⟨fun _ => le, fun other inside listed => ?_⟩, ?_⟩
  · have := ordered.1 other inside listed
    omega
  · rw [List.filter_cons_of_pos (by simpa using some_)]
    refine List.pairwise_cons.2 ⟨fun other inside => ?_, ordered.2⟩
    obtain ⟨inside, listed⟩ := List.mem_filter.1 inside
    exact ordered.1 other inside (of_decide_eq_true listed)

/-! ## One section -/

namespace Decode

variable {bytes : List UInt8} {d d' : Decoder}

/-- What is left of some bytes is what stands from the position on. -/
theorem rest_of_later {r : Reader} (later : (Reader.start bytes).Later r) :
    r.rest = bytes.drop r.pos := by
  obtain ⟨n, -, rfl⟩ := later
  show bytes.drop n = bytes.drop (0 + n)
  rw [Nat.zero_add]

/-- A reader of some bytes is known by its position. -/
theorem eq_advance_of_later {r : Reader} {n : Nat} (later : (Reader.start bytes).Later r) (here : r.pos = n) :
    r = (Reader.start bytes).advance n := by
  obtain ⟨k, -, rfl⟩ := later
  have same : 0 + k = n := here
  rw [← same, Nat.zero_add]

/-- What is at the place of a decoder that reads some bytes. -/
theorem getElem?_of_rest {b : UInt8} {bs : List UInt8} (later : (Reader.start bytes).Later d.reader)
    (here : d.reader.rest = b :: bs) : bytes[d.reader.pos]? = some b := by
  rw [← List.head?_drop, ← rest_of_later later, here]
  rfl

/-- The number of a section is a byte that is known. -/
theorem byte_of_sectionId {id : SectionId} (ends : sectionId d = .ok id d') :
    ∃ b bs, d.reader.rest = b :: bs ∧ SectionId.ofNat? b.toNat = some id := by
  rw [sectionId, bind_ok (pos_eq d)] at ends
  obtain ⟨byte, e, reads, ends⟩ := run_bind_eq_ok_iff.1 ends
  have given : ∃ bs, d.reader.rest = byte :: bs := by
    unfold read Read.byte at reads
    cases here : d.reader.rest with
    | nil =>
      simp only [here] at reads
      cases reads
    | cons b bs =>
      simp only [here] at reads
      cases reads
      exact ⟨bs, rfl⟩
  obtain ⟨bs, here⟩ := given
  refine ⟨byte, bs, here, ?_⟩
  cases known : SectionId.ofNat? byte.toNat with
  | none =>
    simp only [known] at ends
    cases ends
  | some other =>
    have listed : (do
        if other.toNat < (← get).nextSection then failAt d.reader.pos (.unexpectedSection byte.toNat)
        modify fun d => { d with nextSection := other.toNat + 1 }
        return other : DecodeM SectionId) e = .ok id d' → other = id := by
      intro step
      rw [bind_ok (get_eq e)] at step
      split_ifs at step
      · cases step
      · cases step
        rfl
    cases other with
    | custom =>
      simp only [known] at ends
      cases ends
      rfl
    | _ =>
      simp only [known] at ends
      exact congrArg some (listed ends)

/-- A number that was read is spelled where the decoder stood. -/
theorem declared_of_u32 {size : Nat} (ends : read .u32 d = .ok size d') :
    ∃ width, Leb128.decodeUnsigned 32 d.reader.rest = .ok (size, width) ∧
      d'.reader = d.reader.advance width := by
  unfold read Read.u32 Read.leb at ends
  cases reads : Leb128.decodeUnsigned 32 d.reader.rest with
  | ok result =>
    obtain ⟨value, width⟩ := result
    simp only [reads] at ends
    cases ends
    exact ⟨width, rfl, rfl⟩
  | error cause =>
    simp only [reads] at ends
    cases cause <;> cases ends

/-- Two decoders that know the same types, functions and bodies. -/
structure SameEntries (d e : Decoder) : Prop where
  options : e.options = d.options
  types : e.types = d.types
  functions : e.functions = d.functions
  code : e.code = d.code

/-- Knowing the same entries is transitive. -/
theorem SameEntries.trans {e : Decoder} (first : SameEntries d e) (rest : SameEntries e d') :
    SameEntries d d' :=
  ⟨rest.options.trans first.options, rest.types.trans first.types, rest.functions.trans first.functions,
    rest.code.trans first.code⟩

/-- Two decoders that know the same names of functions and locals. -/
structure SameNames (d e : Decoder) : Prop where
  functions : e.metadata.functionNames = d.metadata.functionNames
  locals : e.metadata.localNames = d.metadata.localNames

/-- Reading the contents of a section that lie between two offsets is all that happens to the entries and names. -/
def ReadsBody (bytes : List UInt8) (id : SectionId) (begin stop : Nat) (d d' : Decoder) : Prop :=
  ∃ e e' count, SameEntries d e ∧ SameNames d e ∧ e.reader = (Reader.start bytes).advance begin ∧
    sectionBody id stop e = .ok count e' ∧ e'.reader = (Reader.start bytes).advance stop ∧
    SameEntries e' d' ∧ SameNames e' d'

/-- What a section leaves behind: a record of where it lies, and what may come next. -/
structure Records (bytes : List UInt8) (id : SectionId) (d d' : Decoder) (s : SectionMetadata) : Prop where
  starts : s.startOffset = d.reader.pos
  place : ∃ width size, IsSection bytes id width size s ∧
    d'.reader.pos = s.startOffset + 1 + width + size ∧
    ReadsBody bytes id (s.startOffset + 1 + width) (s.startOffset + 1 + width + size) d d'
  later : (Reader.start bytes).Later d'.reader
  sections : d'.metadata.sections = d.metadata.sections ++ [s]
  next : id = .custom ∧ d'.nextSection = d.nextSection ∨
    id ≠ .custom ∧ d.nextSection ≤ id.toNat ∧ d'.nextSection = id.toNat + 1

/-- Reading alone records no section. -/
theorem OnlyReads.sameSections {n : Nat} (only : OnlyReads n d d') : d.SameSections d' := by
  obtain ⟨-, _, _, rfl, -, -⟩ := only
  exact ⟨rfl, rfl⟩

/-- Reading alone enters nothing. -/
theorem OnlyReads.sameEntries {n : Nat} (only : OnlyReads n d d') : SameEntries d d' := by
  obtain ⟨-, _, _, rfl, -, -⟩ := only
  exact ⟨rfl, rfl, rfl, rfl⟩

/-- Reading alone gives no names. -/
theorem OnlyReads.sameNames {n : Nat} (only : OnlyReads n d d') : SameNames d d' := by
  obtain ⟨-, _, _, rfl, -, -⟩ := only
  exact ⟨rfl, rfl⟩

theorem SameNames.trans {e : Decoder} (first : SameNames d e) (rest : SameNames e d') : SameNames d d' :=
  ⟨rest.functions.trans first.functions, rest.locals.trans first.locals⟩

theorem sameNames_of_sectionId {id : SectionId} (ends : sectionId d = .ok id d') : SameNames d d' := by
  obtain ⟨-, only⟩ | ⟨-, -, e, only, rfl⟩ := sectionId_eq_ok ends
  · exact only.sameNames
  · exact ⟨only.sameNames.functions, only.sameNames.locals⟩

theorem sameEntries_of_sectionId {id : SectionId} (ends : sectionId d = .ok id d') : SameEntries d d' := by
  obtain ⟨-, only⟩ | ⟨-, -, e, only, rfl⟩ := sectionId_eq_ok ends
  · exact only.sameEntries
  · exact ⟨only.sameEntries.options, only.sameEntries.types, only.sameEntries.functions,
      only.sameEntries.code⟩

/-- The number of a section is one byte, and no section is recorded with it. -/
theorem next_of_sectionId {id : SectionId} (ends : sectionId d = .ok id d') :
    d'.reader = d.reader.advance 1 ∧ d'.metadata.sections = d.metadata.sections ∧
      (id = .custom ∧ d'.nextSection = d.nextSection ∨
        id ≠ .custom ∧ d.nextSection ≤ id.toNat ∧ d'.nextSection = id.toNat + 1) := by
  obtain ⟨isCustom, only⟩ | ⟨listed, next, e, only, rfl⟩ := sectionId_eq_ok ends
  · exact ⟨only.reader_eq, only.sameSections.1, .inl ⟨isCustom, only.sameSections.2⟩⟩
  · exact ⟨only.reader_eq, only.sameSections.1, .inr ⟨listed, next, rfl⟩⟩

/-- Reading a section records where it stands. -/
theorem records_of_section (later : (Reader.start bytes).Later d.reader)
    (ends : readSection d = .ok () d') : ∃ id s, Records bytes id d d' s := by
  have moved := (proceeds_readSection.of_ok (Nat.le_refl _) ends).1
  obtain ⟨id, d₁, size, d₂, d₃, count, d₄, number, reads, -, notes, contents, stops, rfl⟩ :=
    readSection_eq_ok_iff.1 ends
  obtain ⟨b, bs, here, known⟩ := byte_of_sectionId number
  obtain ⟨after, sections, next⟩ := next_of_sectionId number
  obtain ⟨width, declared, there⟩ := declared_of_u32 reads
  obtain ⟨_, onlySize⟩ := reading_u32 d₁ size d₂ reads
  obtain ⟨_, onlyNote, rfl, -⟩ := takes_note _ d₂ () d₃ rfl notes
  have proceeds : Proceeds True d₃.reader.pos d₃.reader.pos (sectionBody id (d₂.reader.pos + size)) :=
    proceeds_sectionBody id _
  obtain ⟨-, -, inside⟩ := proceeds.of_ok (Nat.le_refl _) contents
  -- nothing between the number of the section and its record changes what is behind the section
  have behind : d₁.SameSections d₄ :=
    ⟨((inside trivial).1.trans onlyNote.sameSections.1).trans onlySize.sameSections.1,
      ((inside trivial).2.trans onlyNote.sameSections.2).trans onlySize.sameSections.2⟩
  rw [after] at declared there
  have spelled : d.reader.rest.drop 1 = bytes.drop (d.reader.pos + 1) := by
    rw [rest_of_later later, List.drop_drop]
  have bounds := Leb128.bytes_of_decodeUnsigned declared
  refine ⟨id, ⟨id.name, d.reader.pos, .ofInt size, .ofInt count⟩, rfl, ⟨width, size, ?_, ?_⟩,
    later.trans moved, ?_, ?_⟩
  · exact ⟨⟨b, getElem?_of_rest later here, known⟩, spelled ▸ declared, bounds.1, bounds.2, rfl, rfl⟩
  · have begins : d₂.reader.pos = d.reader.pos + 1 + width := congrArg Reader.pos there
    have ended : d₄.reader.pos = d.reader.pos + 1 + width + size := begins ▸ stops
    have before := sameEntries_of_sectionId number
    have onTheWay := onlySize.sameEntries.trans onlyNote.sameEntries
    have start : (Reader.start bytes).Later d₃.reader :=
      (later.trans (proceeds_sectionId.of_ok (Nat.le_refl _) number).1).trans
        ⟨_, (onlySize.trans onlyNote).1, (onlySize.trans onlyNote).reader_eq⟩
    have named := (sameNames_of_sectionId number).trans (onlySize.sameNames.trans onlyNote.sameNames)
    refine ⟨ended, d₃, d₄, count, before.trans onTheWay, named, ?_, begins ▸ contents, ?_, ⟨rfl, rfl, rfl, rfl⟩,
      rfl, rfl⟩
    · exact eq_advance_of_later start (onlyNote.pos_eq.trans begins)
    · exact eq_advance_of_later (later.trans moved) ended
  · exact congrArg (· ++ _) (behind.1.trans sections)
  · exact next.imp (fun custom => ⟨custom.1, behind.2.trans custom.2⟩)
      fun listed => ⟨listed.1, listed.2.1, behind.2.trans listed.2.2⟩

/-! ## All sections -/

/-- Sections that were read one after the other. -/
inductive Recorded (bytes : List UInt8) : Decoder → List SectionId → List SectionMetadata → Decoder → Prop
  | done (d : Decoder) : Recorded bytes d [] [] d
  | more {d e d' : Decoder} {id : SectionId} {s : SectionMetadata} {ids : List SectionId}
    {ss : List SectionMetadata} (first : Records bytes id d e s) (rest : Recorded bytes e ids ss d') :
    Recorded bytes d (id :: ids) (s :: ss) d'

section Recorded

variable {ids : List SectionId} {ss : List SectionMetadata}

/-- Sections are recorded in the order in which they are read. -/
theorem Recorded.sections (recorded : Recorded bytes d ids ss d') :
    d'.metadata.sections = d.metadata.sections ++ ss := by
  induction recorded with
  | done => exact (List.append_nil _).symm
  | more first _ ih => rw [ih, first.sections, List.append_assoc, List.singleton_append]

/-- Sections are read in the order of their numbers. -/
theorem Recorded.ordered (recorded : Recorded bytes d ids ss d') : Ordered d.nextSection ids := by
  induction recorded with
  | done => exact ordered_nil _
  | more first _ ordered =>
    obtain ⟨rfl, same⟩ | ⟨listed, le, next⟩ := first.next
    · exact (same ▸ ordered).custom
    · exact (next ▸ ordered).cons listed le

/-- Sections that were read to the end of the input cover it. -/
theorem Recorded.tiles (recorded : Recorded bytes d ids ss d') (last : d'.reader.pos = bytes.length) :
    Tiles bytes d.reader.pos ids ss := by
  induction recorded with
  | done => exact last ▸ .done
  | more first _ ih =>
    obtain ⟨width, size, isSection, stop, -⟩ := first.place
    have tiles := ih last
    rw [stop] at tiles
    exact first.starts ▸ .more isSection tiles

end Recorded

/-- Sections are read up to the end of the input. -/
theorem recorded_of_sections {fuel : Nat} (later : (Reader.start bytes).Later d.reader)
    (enough : d.reader.remaining < fuel) (ends : readSections fuel d = .ok () d') :
    ∃ ids ss, Recorded bytes d ids ss d' ∧ d'.reader.pos = bytes.length := by
  induction fuel generalizing d with
  | zero => exact absurd enough (Nat.not_lt_zero _)
  | succ fuel ih =>
    rw [readSections, bind_ok (get_eq d)] at ends
    split_ifs at ends with left
    · obtain ⟨⟨⟩, e, now, rest⟩ := run_bind_eq_ok_iff.1 ends
      obtain ⟨id, s, records⟩ := records_of_section later now
      obtain ⟨further, forward, -⟩ := proceeds_readSection.of_ok (Nat.le_refl _) now
      have fewer : e.reader.remaining < d.reader.remaining := by
        have size := further.size_eq
        simp only [Reader.size, Reader.remaining] at *
        omega
      obtain ⟨ids, ss, recorded, stop⟩ := ih records.later (by omega) rest
      exact ⟨id :: ids, s :: ss, .more records recorded, stop⟩
    · have size : d.reader.pos + d.reader.rest.length = 0 + bytes.length := later.size_eq
      have empty : d.reader.rest = [] := by simpa [Reader.atEnd] using left
      rw [empty, List.length_nil] at size
      cases ends
      exact ⟨[], [], .done _, by omega⟩

end Decode

/-- **Decoding a byte string ends, and its sections cover the input.**  No bound on a recursion is ever
what ends it, no offset that is passed on the way lies beyond the input, what is refused is refused at
an offset of the input, and the sections that are recorded lie one after another from offset 8 to the
end, those other than custom ones in their order. -/
theorem decode_tiles (options : DecoderOptions) (bytes : List UInt8) :
    ((∀ depth, Settles (instructions · depth)) ∧ (∀ stop, Settles (nameSubsections stop)) ∧
      Settles readSections) ∧
    (∃ ps, Passes module (.start options bytes) ps ∧ ∀ p ∈ ps, p ≤ bytes.length) ∧
    match decode options bytes with
    | .ok program => ∃ fields metadata ids, program = ⟨[.module none fields (some metadata)]⟩ ∧
      Tiles bytes 8 ids metadata.sections ∧
      (ids.filter (· ≠ .custom)).Pairwise (·.toNat < ·.toNat)
    | .error e => e.offset ≤ bytes.length := by
  have length : (Decoder.start options bytes).reader.size = bytes.length := Nat.zero_add _
  have passes := (proceeds_module (.start options bytes) (Nat.zero_le _)).1
  rw [length] at passes
  refine ⟨⟨settles_instructions, settles_nameSubsections, settles_readSections⟩, passes, ?_⟩
  unfold decode decodeWithTrace
  cases ends : module (.start options bytes) with
  | error e d =>
    obtain ⟨later, passed⟩ := proceeds_module.of_error (Nat.zero_le _) ends
    exact passed.trans ((Reader.pos_le_size _).trans_eq (later.size_eq.trans length))
  | ok program d =>
    obtain ⟨⟨⟩, e, headed, rest⟩ := run_bind_eq_ok_iff.1 ends
    rw [bind_ok (get_eq e)] at rest
    obtain ⟨⟨⟩, t, sections, rest⟩ := run_bind_eq_ok_iff.1 rest
    rw [bind_ok (get_eq t)] at rest
    have types : (Decoder.start options bytes).types = (Decoder.start options bytes).types := rfl
    obtain ⟨n, only, rfl⟩ := takes_header _ () e types headed
    have later : (Reader.start bytes).Later e.reader := ⟨8, only.1, only.reader_eq⟩
    obtain ⟨ids, ss, recorded, last⟩ := recorded_of_sections later (Nat.lt_succ_self _) sections
    have tiles := recorded.tiles last
    have eight : e.reader.pos = 8 := congrArg Reader.pos only.reader_eq
    have all : t.metadata.sections = ss := by
      rw [recorded.sections, only.sameSections.1]
      rfl
    rw [← all, eight] at tiles
    unfold finish at rest
    cases assembled : assemble t 0 t.functions t.code with
    | error x =>
      simp only [assembled] at rest
      cases rest
    | ok funcs =>
      simp only [assembled] at rest
      cases rest
      exact ⟨_, _, ids, rfl, tiles, recorded.ordered.2⟩

end WasmEngine.Binary
