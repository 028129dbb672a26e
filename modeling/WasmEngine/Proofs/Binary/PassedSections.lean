import WasmEngine.Proofs.Binary.BodyPairing
import WasmEngine.Proofs.Binary.Lockstep

/-!
# Sections that are passed over

Where options pass over the contents of a section, a decoder that reads them lands at the same place and
adds only what the options leave out (`Overlooks`).  So the two decoders go along with each other over all
sections of a module (`Abridges.sections`).
-/

namespace WasmEngine.Binary

open Outcome Decode

/-- A decoder that moved on by some bytes and kept all but what options leave out. -/
structure Overlooks (o : DecoderOptions) (n : Nat) (d e : Decoder) : Prop where
  within : n ≤ d.reader.remaining
  reader : e.reader = d.reader.advance n
  types : e.types = d.types
  functions : e.functions = d.functions
  tables : e.tables = d.tables
  memories : e.memories = d.memories
  globals : e.globals = d.globals
  code : o.ignoreCodeSection = false → e.code = d.code
  exports : e.exports = d.exports
  fields : e.fields.filter o.keeps = d.fields.filter o.keeps
  metadata : e.metadata.without o = d.metadata.without o
  nextSection : e.nextSection = d.nextSection

variable {o : DecoderOptions} {shift : String → Int} {d d' e : Decoder}

/-! ## Bodies and data segments -/

section Overlooks

variable {n k : Nat} {t : Decoder}

/-- Reading alone overlooks what it reads. -/
theorem Overlooks.of_onlyReads (only : OnlyReads n d e) : Overlooks o n d e := by
  obtain ⟨within, _, _, rfl, -, -⟩ := only
  exact ⟨within, rfl, rfl, rfl, rfl, rfl, rfl, fun _ => rfl, rfl, rfl, rfl, rfl⟩

/-- What is overlooked after something that was overlooked. -/
theorem Overlooks.trans (first : Overlooks o n d t) (second : Overlooks o k t e) : Overlooks o (n + k) d e where
  within := by
    have here := first.within
    have there := second.within
    rw [first.reader] at there
    simp only [Reader.remaining, Reader.advance, List.length_drop] at *
    omega
  reader := by rw [second.reader, first.reader, advance_advance]
  types := second.types.trans first.types
  functions := second.functions.trans first.functions
  tables := second.tables.trans first.tables
  memories := second.memories.trans first.memories
  globals := second.globals.trans first.globals
  code all := (second.code all).trans (first.code all)
  exports := second.exports.trans first.exports
  fields := second.fields.trans first.fields
  metadata := second.metadata.trans first.metadata
  nextSection := second.nextSection.trans first.nextSection

/-- An entry that options pass over adds nothing that they leave. -/
theorem Overlooks.record {x : Entry} (passes : o.PassesOver x.home) (overlooks : Overlooks o n d e) :
    Overlooks o n d (x.record e) := by
  cases x with
  | code code =>
    obtain ⟨-, ignored⟩ | ⟨other, -⟩ := passes
    · exact { overlooks with
        types := (List.append_nil _).trans overlooks.types
        functions := (List.append_nil _).trans overlooks.functions
        exports := (List.append_nil _).trans overlooks.exports
        code := fun all => absurd (all.symm.trans ignored) nofun
        fields := (congrArg (List.filter _) (List.append_nil _)).trans overlooks.fields }
    · cases other
  | data target offset values =>
    obtain ⟨other, -⟩ | ⟨-, ignored⟩ := passes
    · cases other
    · exact { overlooks with
        types := (List.append_nil _).trans overlooks.types
        functions := (List.append_nil _).trans overlooks.functions
        exports := (List.append_nil _).trans overlooks.exports
        code := fun all => (List.append_nil _).trans (overlooks.code all)
        fields := by
          show (e.fields ++ [_]).filter _ = _
          rw [List.filter_append, List.filter_cons_of_neg (by simp [DecoderOptions.keeps, ignored, Node.kind]),
            List.filter_nil, List.append_nil]
          exact overlooks.fields }
  | _ => obtain ⟨other, -⟩ | ⟨other, -⟩ := passes <;> cases other

/-- A step of a section that is passed over is overlooked. -/
theorem overlooks_of_step {id : SectionId} (passes : o.PassesOver id) {i : Nat}
    (ends : entryStep id i d = .ok () e) : ∃ n, Overlooks o n d e := by
  obtain ⟨x, t, reads, -, rfl⟩ := entryStep_eq_ok_iff.1 ends
  obtain ⟨n, only⟩ := reading_entry id i d x t reads
  obtain rfl : x.home = id := gives_home id i d x t reads
  exact ⟨n, (Overlooks.of_onlyReads only).record passes⟩

/-- A section that is passed over is overlooked entry by entry. -/
theorem overlooks_of_forEach {id : SectionId} (passes : o.PassesOver id) {i k : Nat}
    (ends : forEach (entryStep id) i k d = .ok () e) : ∃ n, Overlooks o n d e := by
  induction k generalizing i d with
  | zero =>
    cases ends
    exact ⟨0, .of_onlyReads (.refl _)⟩
  | succ k ih =>
    obtain ⟨⟨⟩, t, now, rest⟩ := run_bind_eq_ok_iff.1 ends
    obtain ⟨n, first⟩ := overlooks_of_step passes now
    obtain ⟨k, others⟩ := ih rest
    exact ⟨n + k, first.trans others⟩

end Overlooks

/-! ## Names -/

section Names

variable {α β : Type}

/-- A step that takes no name for a label or an entry. -/
def TakesNoName (m : DecodeM α) : Prop := Respects (fun d e : Decoder => e.names = d.names) m

/-- A single read takes no name. -/
theorem takesNoName_read (r : Read α) : TakesNoName (Decode.read r) := by
  intro d
  unfold Decode.read
  cases r d.reader <;> rfl

/-- What takes no names does so along the parts of a name section. -/
theorem alongNames_takesNoName : AlongNames TakesNoName where
  bind := Respects.bind fun first second => second.trans first
  pure _ _ := rfl
  byte := takesNoName_read _
  u32 := takesNoName_read _
  name := takesNoName_read _
  skip _ := takesNoName_read _
  pos _ := rfl
  mismatch _ _ _ _ _ := rfl
  change _ _ := rfl

/-- The parts of the name section bring in names of functions and locals only. -/
theorem overlooks_of_subsections (ignored : o.ignoreNameSection = true) {stop fuel : Nat}
    (ends : nameSubsections stop fuel d = .ok () e) : (∃ n, Overlooks o n d e) ∧ e.names = d.names := by
  have names := alongNames_takesNoName.nameSubsections stop fuel d
  have inside : Proceeds True d.reader.pos d.reader.pos (nameSubsections stop fuel) :=
    proceeds_nameSubsections stop fuel
  rw [ends] at names
  obtain ⟨-, n, ⟨within, ⟨_, _, metadata, rfl, -⟩, -⟩, -⟩ := named_of_subsections ends
  refine ⟨⟨n, within, rfl, rfl, rfl, rfl, rfl, rfl, fun _ => rfl, rfl, rfl, ?_, rfl⟩, names⟩
  have sections : metadata.sections = d.metadata.sections :=
    ((inside.of_ok (Nat.le_refl _) ends).2.2 trivial).1
  simp only [ModuleMetadata.without, ignored, if_true, sections]

/-- Names that options leave are read alike. -/
theorem alongNames_inStep (all : o.ignoreNameSection = false) : AlongNames (InStep o shift) where
  bind := InStep.bind
  pure := inStep_pure
  byte := inStep_read _
  u32 := inStep_read _
  name := inStep_read _
  skip _ := inStep_read _
  pos := inStep_pos
  mismatch _ _ _ _ := inStep_failAt _ _
  change f _ _ abridges := by
    have left (metadata : ModuleMetadata) : metadata.without o = metadata := by
      simp only [ModuleMetadata.without, all, Bool.false_eq_true, if_false]
    refine .ok rfl { abridges with metadata := ?_ }
    rw [left]
    exact congrArg f (abridges.metadata.trans (left _))

end Names

/-! ## Contents of sections -/

/-- Skipping to a position that there is always succeeds. -/
theorem skipTo_advance {n : Nat} (within : n ≤ d.reader.remaining) :
    skipTo (d.reader.pos + n) d = .ok () { d with reader := d.reader.advance n } := by
  have enough : d.reader.hasAtLeast n = true := decide_eq_true within
  rw [skipTo, bind_ok (pos_eq d), Nat.add_sub_cancel_left, Decode.read, Read.skip, if_pos enough]

/-- What one decoder read of a section, the other passes over. -/
theorem Abridges.overlook (abridges : Abridges o shift d d') {n : Nat} (overlooks : Overlooks o n d e)
    {shift' : String → Int} (names : ∀ stem, (e.names.count stem : Int) = d'.names.count stem + shift' stem)
    (fields : Node.OffsetsMoved shift' (d.fields.filter o.keeps) d'.fields) :
    ∃ e', skipTo e.reader.pos d' = .ok () e' ∧ Abridges o shift' e e' := by
  have stop : e.reader.pos = d'.reader.pos + n := by
    rw [overlooks.reader, abridges.reader]
    rfl
  have within : n ≤ d'.reader.remaining := abridges.reader ▸ overlooks.within
  rw [stop, skipTo_advance within]
  exact ⟨_, rfl, {
    options := abridges.options
    reader := by rw [overlooks.reader, abridges.reader]
    names := names
    types := abridges.types.trans overlooks.types.symm
    functions := abridges.functions.trans overlooks.functions.symm
    tables := abridges.tables.trans overlooks.tables.symm
    memories := abridges.memories.trans overlooks.memories.symm
    globals := abridges.globals.trans overlooks.globals.symm
    code := fun all => (abridges.code all).trans (overlooks.code all).symm
    exports := abridges.exports.trans overlooks.exports.symm
    fields := overlooks.fields ▸ fields
    metadata := abridges.metadata.trans overlooks.metadata.symm
    nextSection := abridges.nextSection.trans overlooks.nextSection.symm }⟩

/-- The contents of a custom section after its name. -/
def customContents (stop : Nat) (name : String) : DecodeM Unit := fun d =>
  if name == "name" && !d.options.ignoreNameSection then nameSubsections stop (d.reader.remaining + 1) d
  else (do
    note s!"ignore custom {Text.stringLiteral name} section"
    skipTo stop : DecodeM Unit) d

/-- A custom section begins with its name. -/
theorem customSection_eq (stop : Nat) : customSection stop = read .name >>= customContents stop := by
  refine bind_congr fun name => funext fun d => ?_
  rw [bind_ok (get_eq d), customContents]
  split
  · rw [bind_ok (get_eq d)]
  · rfl

theorem note_of_default (listed : d.options = .default) (what : String) : note what d = .ok () d := by
  rw [note, run_modify, listed]
  rfl

/-- A custom section is read in step. -/
theorem Abridges.custom (abridges : Abridges o shift d d') (options : d.options = .default)
    (ends : customSection e.reader.pos d = .ok () e) :
    ∃ e', customSection e.reader.pos d' = .ok () e' ∧ Abridges o shift e e' := by
  rw [customSection_eq] at ends ⊢
  obtain ⟨name, t, reads, rest⟩ := run_bind_eq_ok_iff.1 ends
  obtain ⟨_, t', reads', rfl, there⟩ := (inStep_read .name).exists_ok abridges reads
  obtain ⟨n, only⟩ := reading_read Read.gives_name d name t reads
  have listed : t.options = .default := (Advances.of_onlyReads only).options.trans options
  suffices same : ∃ e', customContents e.reader.pos name t' = .ok () e' ∧ Abridges o shift e e' by
    obtain ⟨e', rest', after⟩ := same
    exact ⟨e', run_bind_eq_ok_iff.2 ⟨name, t', reads', rest'⟩, after⟩
  rw [customContents, listed] at rest
  rw [customContents, there.options, there.reader]
  by_cases isNames : (name == "name") = true
  · rw [if_pos (by rw [isNames]; rfl)] at rest
    cases ignored : o.ignoreNameSection with
    | false =>
      rw [if_pos (by rw [isNames]; rfl)]
      obtain ⟨_, e', rest', -, after⟩ := ((alongNames_inStep ignored).nameSubsections _ _).exists_ok there rest
      exact ⟨e', rest', after⟩
    | true =>
      rw [if_neg (by simp)]
      obtain ⟨⟨n, overlooks⟩, names⟩ := overlooks_of_subsections ignored rest
      obtain ⟨_, u, notes, -, again⟩ := (inStep_note _).exists_ok there (note_of_default listed _)
      obtain ⟨e', skips, after⟩ := again.overlook overlooks (names ▸ again.names) again.fields
      exact ⟨e', run_bind_eq_ok_iff.2 ⟨_, u, notes, skips⟩, after⟩
  · have other : ¬(name == "name" && !o.ignoreNameSection) = true := by simp [isNames]
    rw [if_neg (by simp [isNames])] at rest
    rw [if_neg other]
    obtain ⟨_, e', rest', -, after⟩ :=
      ((inStep_note _).bind fun _ => inStep_skipTo _).exists_ok there rest
    exact ⟨e', rest', after⟩

/-- The amounts by which two decoders differ in the numbers of their names. -/
def shiftOf (d d' : Decoder) (stem : String) : Int := d.names.count stem - d'.names.count stem

/-- What is kept without data is no data. -/
theorem DecoderOptions.ne_data_of_keeps (ignored : o.ignoreDataSection = true) {node : Node}
    (kept : o.keeps node = true) : node.kind ≠ .data := by
  intro isData
  rw [DecoderOptions.keeps, ignored, isData] at kept
  cases kept

/-- The contents of a section that is a vector. -/
theorem Abridges.vector (abridges : Abridges o shift d d') (options : d.options = .default) {id : SectionId}
    (some_ : id ≠ .custom) (notStart : id ≠ .start) (still : id ≠ .data → shift = unmoved)
    (none : id = .code → ∀ node ∈ d.fields, node.kind ≠ .data) (count : Nat)
    (ends : vectorSection id count e.reader.pos d = .ok () e) :
    ∃ shift' e', vectorSection id count e.reader.pos d' = .ok () e' ∧ Abridges o shift' e e' ∧
      (shift' = shift ∨ o.PassesOver id) := by
  rw [vectorSection_eq some_ notStart (options ▸ DecoderOptions.complete_default)] at ends
  by_cases passes : o.PassesOver id
  · rw [vectorSection_of_passes (abridges.options ▸ passes)]
    obtain ⟨n, overlooks⟩ := overlooks_of_forEach passes ends
    -- no field that is left has a label, so that the labels may get any numbers
    have others : ∀ node ∈ d.fields.filter o.keeps, node.kind ≠ .data := by
      intro node inside
      obtain ⟨listed, kept⟩ := List.mem_filter.1 inside
      obtain ⟨isCode, -⟩ | ⟨-, ignored⟩ := passes
      · exact none isCode node listed
      · exact DecoderOptions.ne_data_of_keeps ignored kept
    have names (stem : String) : (e.names.count stem : Int) = d'.names.count stem + shiftOf e d' stem := by
      unfold shiftOf
      omega
    have fields : Node.OffsetsMoved (shiftOf e d') (d.fields.filter o.keeps) d'.fields := by
      rw [abridges.fields.eq_of_forall others]
      exact .of_forall others
    obtain ⟨e', skips, after⟩ := abridges.overlook overlooks names fields
    exact ⟨_, e', skips, after, .inr passes⟩
  · rw [vectorSection_of_reads some_ notStart (abridges.options ▸ passes)]
    have all (isData : id = .data) : o.ignoreDataSection = false :=
      Bool.eq_false_iff.2 fun ignored => passes (.inr ⟨isData, ignored⟩)
    obtain ⟨e', entries, after⟩ := abridges.forEach still all ends
    exact ⟨shift, e', entries, after, .inl rfl⟩

/-- What both decoders do with the contents of a section.  The numbers of labels change by other amounts
after contents that one of them passes over. -/
theorem Abridges.body (abridges : Abridges o shift d d') (options : d.options = .default) {id : SectionId}
    (still : id ≠ .custom → id ≠ .data → shift = unmoved)
    (none : id = .code → ∀ node ∈ d.fields, node.kind ≠ .data) {count : Nat}
    (ends : sectionBody id e.reader.pos d = .ok count e) :
    ∃ shift' e', sectionBody id e.reader.pos d' = .ok count e' ∧ Abridges o shift' e e' ∧
      (shift' = shift ∨ o.PassesOver id) := by
  by_cases isCustom : id = .custom
  · subst isCustom
    obtain ⟨⟨⟩, t, custom, last⟩ := run_bind_eq_ok_iff.1 ends
    obtain ⟨rfl, rfl⟩ := run_pure_eq_ok_iff.1 last
    obtain ⟨e', custom', after⟩ := abridges.custom options custom
    exact ⟨shift, e', run_bind_eq_ok_iff.2 ⟨_, e', custom', rfl⟩, after, .inl rfl⟩
  by_cases isStart : id = .start
  · subst isStart
    obtain ⟨⟨⟩, t, starts, last⟩ := run_bind_eq_ok_iff.1 ends
    obtain ⟨rfl, rfl⟩ := run_pure_eq_ok_iff.1 last
    obtain ⟨e', step', after⟩ := abridges.step (still isCustom) nofun (step_of_startBody ends)
    exact ⟨shift, e', run_bind_eq_ok_iff.2 ⟨_, e', step', rfl⟩, after, .inl rfl⟩
  rw [sectionBody_eq isCustom isStart] at ends ⊢
  obtain ⟨count, u, reads, ends⟩ := run_bind_eq_ok_iff.1 ends
  obtain ⟨⟨⟩, t, notes, ends⟩ := run_bind_eq_ok_iff.1 ends
  obtain ⟨⟨⟩, _, entries, last⟩ := run_bind_eq_ok_iff.1 ends
  obtain ⟨rfl, rfl⟩ := run_pure_eq_ok_iff.1 last
  obtain ⟨_, u', reads', rfl, here⟩ := (inStep_read .u32).exists_ok abridges reads
  obtain ⟨_, t', notes', -, there⟩ := (inStep_note _).exists_ok here notes
  obtain ⟨n, _, _, _, rfl, -⟩ := ((reading_u32).bind fun _ => reading_note _) d () t
    (run_bind_eq_ok_iff.2 ⟨count, u, reads, notes⟩)
  obtain ⟨shift', e', entries', after, same⟩ :=
    there.vector options isCustom isStart (still isCustom) none count entries
  exact ⟨shift', e', run_bind_eq_ok_iff.2 ⟨_, u', reads', run_bind_eq_ok_iff.2 ⟨_, t', notes',
    run_bind_eq_ok_iff.2 ⟨_, e', entries', rfl⟩⟩⟩, after, same⟩

/-! ## All sections -/

theorem inStep_sectionId : InStep o shift sectionId := by
  refine inStep_pos.bind fun start => (inStep_read _).bind fun byte => ?_
  have listed (id : SectionId) : InStep o shift (do
      if id.toNat < (← get).nextSection then failAt start (.unexpectedSection byte.toNat)
      modify fun d => { d with nextSection := id.toNat + 1 }
      return id) := by
    refine mirrors_look fun d d' abridges => ?_
    rw [abridges.nextSection]
    refine mirrors_unless ?_
    exact Mirrors.bind (fun _ _ abridges => .ok rfl { abridges with nextSection := rfl }) fun _ _ _ =>
      inStep_pure id
  split
  · exact inStep_pure _
  · exact listed _
  · exact inStep_failAt _ _

theorem inStep_header : InStep o shift header :=
  (inStep_read _).bind fun _ => mirrors_unless <| (inStep_note _).bind fun _ => (inStep_read _).bind fun _ =>
    mirrors_unless (inStep_note _)

/-- Labels have other numbers only after a section that options pass over, which is one of the last two. -/
def Settled (o : DecoderOptions) (shift : String → Int) (next : Nat) : Prop :=
  shift = unmoved ∨ SectionId.code.toNat < next ∧ (o.ignoreCodeSection = true ∨ o.ignoreDataSection = true)

/-- Before the data section no field is data. -/
theorem Gathered.no_data {total : Nat} {es : List Entry} (gathered : Gathered total es d)
    (early : d.nextSection ≤ SectionId.code.toNat) : ∀ node ∈ d.fields, node.kind ≠ .data := by
  intro node inside
  rw [gathered.holds.fields] at inside
  obtain ⟨k, x, listed, given⟩ := mem_numbered inside
  refine x.kind_field (fun isData => ?_) given
  have earlier := gathered.earlier x listed
  rw [isData] at earlier
  exact absurd (Nat.lt_of_lt_of_le earlier early) (by decide)

/-- As long as a section may still come that is not the last one, no label has another number. -/
theorem Settled.unmoved_of_le {next : Nat} (settled : Settled o shift next) {id : SectionId}
    (le : next ≤ id.toNat) (other : id ≠ .data) : shift = unmoved := by
  obtain unmoved | ⟨late, -⟩ := settled
  · exact unmoved
  · have last : SectionId.code.toNat < id.toNat := Nat.lt_of_lt_of_le late le
    cases id with
    | data => exact absurd rfl other
    | _ => exact absurd last (by decide)

/-- What is settled from one section on is so from later ones on. -/
theorem Settled.mono {next next' : Nat} (settled : Settled o shift next) (le : next ≤ next') :
    Settled o shift next' :=
  settled.imp_right fun ⟨late, ignored⟩ => ⟨Nat.lt_of_lt_of_le late le, ignored⟩

/-- A section that is passed over shifts no names from there on. -/
theorem settled_of_passes {id : SectionId} (passes : o.PassesOver id) : Settled o shift (id.toNat + 1) := by
  obtain ⟨rfl, ignored⟩ | ⟨rfl, ignored⟩ := passes
  · exact .inr ⟨by decide, .inl ignored⟩
  · exact .inr ⟨by decide, .inr ignored⟩

/-- Custom sections are not passed over. -/
theorem DecoderOptions.PassesOver.ne_custom {id : SectionId} (passes : o.PassesOver id) : id ≠ .custom := by
  obtain ⟨rfl, -⟩ | ⟨rfl, -⟩ := passes <;> exact nofun

/-- Recording a section keeps two decoders in step. -/
theorem Abridges.addSection (abridges : Abridges o shift d d') (s : SectionMetadata) :
    Abridges o shift (addSection d s) (addSection d' s) :=
  { abridges with
    metadata := by
      rw [Binary.addSection, Binary.addSection, abridges.metadata]
      unfold ModuleMetadata.without
      split_ifs <;> rfl }

/-- The number of a section changes neither the options nor the fields. -/
theorem kept_of_sectionId {id : SectionId} (number : sectionId d = .ok id e) :
    e.options = d.options ∧ e.fields = d.fields := by
  obtain ⟨-, -, _, _, rfl, -⟩ | ⟨-, -, _, ⟨-, _, _, rfl, -⟩, rfl⟩ := sectionId_eq_ok number <;> exact ⟨rfl, rfl⟩

/-- Both decoders read a section. -/
theorem Abridges.section {total : Nat} {es : List Entry} (abridges : Abridges o shift d d')
    (gathered : Gathered total es d) (settled : Settled o shift d.nextSection)
    (ends : readSection d = .ok () e) :
    ∃ shift' e', readSection d' = .ok () e' ∧ Abridges o shift' e e' ∧ Settled o shift' e.nextSection := by
  obtain ⟨id, d₁, size, d₂, d₃, count, d₄, number, reads, enough, notes, contents, stops, rfl⟩ :=
    readSection_eq_ok_iff.1 ends
  obtain ⟨_, d₁', number', rfl, here⟩ := inStep_sectionId.exists_ok abridges number
  obtain ⟨_, d₂', reads', rfl, there⟩ := (inStep_read _).exists_ok here reads
  obtain ⟨_, d₃', notes', -, begins⟩ := (inStep_note _).exists_ok there notes
  obtain ⟨n, -, names, trace, rfl, -⟩ := (reading_u32.bind fun _ => reading_note _) d₁ () d₃
    (run_bind_eq_ok_iff.2 ⟨size, d₂, reads, notes⟩)
  obtain ⟨options, fields⟩ := kept_of_sectionId number
  obtain ⟨-, -, next⟩ := next_of_sectionId number
  have inside : Proceeds True 0 0 (sectionBody id (d₂.reader.pos + size)) := proceeds_sectionBody id _
  have kept : d₄.nextSection = d₁.nextSection := ((inside.of_ok (Nat.zero_le _) contents).2.2 trivial).2
  rw [← stops] at contents
  have still (some_ : id ≠ .custom) (other : id ≠ .data) : shift = unmoved := by
    obtain ⟨isCustom, -⟩ | ⟨-, le, -⟩ := next
    · exact absurd isCustom some_
    · exact settled.unmoved_of_le le other
  have none (isCode : id = .code) : ∀ node ∈ d₁.fields, node.kind ≠ .data := by
    obtain ⟨isCustom, -⟩ | ⟨-, le, -⟩ := next
    · cases isCode.symm.trans isCustom
    · rw [isCode] at le
      exact fields ▸ gathered.no_data le
  obtain ⟨shift', d₄', contents', after, same⟩ :=
    begins.body (options.trans gathered.options) still none contents
  refine ⟨shift', _, readSection_eq_ok_iff.2 ⟨id, d₁', size, d₂', d₃', count, d₄', number', reads', ?_, notes',
    ?_, ?_, rfl⟩, ?_, ?_⟩
  · rwa [there.reader]
  · rwa [there.reader, ← stops]
  · rw [after.reader, there.reader, stops]
  · rw [abridges.reader]
    exact after.addSection _
  · show Settled o shift' d₄.nextSection
    rw [kept]
    obtain ⟨isCustom, next⟩ | ⟨-, le, next⟩ := next
    · rw [next]
      obtain rfl | passes := same
      · exact settled
      · exact absurd isCustom passes.ne_custom
    · rw [next]
      obtain rfl | passes := same
      · exact settled.mono (Nat.le_succ_of_le le)
      · exact settled_of_passes passes

/-- Both decoders read all sections. -/
theorem Abridges.sections {total fuel : Nat} {es : List Entry} (abridges : Abridges o shift d d')
    (gathered : Gathered total es d) (settled : Settled o shift d.nextSection)
    (ends : readSections fuel d = .ok () e) :
    ∃ shift' e', readSections fuel d' = .ok () e' ∧ Abridges o shift' e e' ∧ Settled o shift' e.nextSection := by
  induction fuel generalizing es shift d d' with
  | zero =>
    cases ends
    exact ⟨shift, d', rfl, abridges, settled⟩
  | succ fuel ih =>
    rw [readSections, bind_ok (get_eq d)] at ends
    rw [readSections, bind_ok (get_eq d'), abridges.reader]
    split_ifs at ends ⊢
    · obtain ⟨⟨⟩, t, now, rest⟩ := run_bind_eq_ok_iff.1 ends
      obtain ⟨xs, gathered'⟩ := gathered.section now
      obtain ⟨shift', t', now', there, settled'⟩ := abridges.section gathered settled now
      obtain ⟨shift'', e', rest', after⟩ := ih there gathered' settled' rest
      exact ⟨shift'', e', run_bind_eq_ok_iff.2 ⟨_, t', now', rest'⟩, after⟩
    · cases ends
      exact ⟨shift, d', rfl, abridges, settled⟩

end WasmEngine.Binary
