import WasmEngine.Proofs.Binary.EntrySpelling
import WasmEngine.Proofs.Binary.Literals

/-!
# What the sections of a module give

After each section a decoder holds the entries that it read, grouped by section, and each of them can
be written in no more bytes than it took (`Gathered`).
-/

namespace WasmEngine.Binary

open Outcome Decode

/-- The types that entries define. -/
def typesOf (es : List Entry) : List Signature := es.filterMap Entry.type?

/-- The entries of a section. -/
def ofSection (id : SectionId) (es : List Entry) : List Entry := es.filter (·.home = id)

/-- The sections of entries in the order of a module. -/
def SectionId.ordered : List SectionId :=
  [.type, .imports, .function, .table, .memory, .global, .exports, .start, .element, .code, .data]

/-- Entries grouped by section. -/
def bySection (es : List Entry) : List Entry := SectionId.ordered.flatMap (ofSection · es)

/-- What an export refers to is among some entries. -/
def Entry.InRange (es : List Entry) : Entry → Prop
  | .exported _ kind index => index < countOf kind es
  | _ => True

/-- What is written in a section after its size. -/
def sectionContents (T : List Signature) (id : SectionId) (xs : List Entry) : List UInt8 :=
  if id = .start then xs.flatMap (Entry.bytes T)
  else Encode.u32 xs.length ++ xs.flatMap (Entry.bytes T)

/-- A section whose sizes take 32 bits. -/
def Fits (T : List Signature) (id : SectionId) (xs : List Entry) : Prop :=
  xs.length < UInt32.size ∧ (sectionContents T id xs).length < UInt32.size

/-- More entries only make an index space larger. -/
theorem countOf_le_append (kind : ExportKind) (es xs : List Entry) :
    countOf kind es ≤ countOf kind (es ++ xs) := by
  rw [countOf, countOf, List.countP_append]
  exact Nat.le_add_right _ _

/-- An export that is in range stays so when there are more entries. -/
theorem Entry.InRange.append {es : List Entry} {x : Entry} (inRange : x.InRange es)
    (xs : List Entry) : x.InRange (es ++ xs) := by
  cases x with
  | exported name kind index => exact Nat.lt_of_lt_of_le inRange (countOf_le_append kind es xs)
  | _ => trivial

theorem ofSection_cons (id : SectionId) (x : Entry) (es : List Entry) :
    ofSection id (x :: es) = if x.home = id then x :: ofSection id es else ofSection id es := by
  rw [ofSection, List.filter_cons]
  by_cases same : x.home = id
  · rw [if_pos same, if_pos (decide_eq_true same), ofSection]
  · rw [if_neg same, if_neg (fun now => same (of_decide_eq_true now)), ofSection]

/-- The entries of a section among entries in a row. -/
theorem ofSection_append (id : SectionId) (es xs : List Entry) :
    ofSection id (es ++ xs) = ofSection id es ++ ofSection id xs := List.filter_append ..

theorem ofSection_eq_self {id : SectionId} {xs : List Entry} (here : ∀ x ∈ xs, x.home = id) :
    ofSection id xs = xs :=
  List.filter_eq_self.2 fun x inside => decide_eq_true (here x inside)

theorem ofSection_eq_nil {id : SectionId} {xs : List Entry} (elsewhere : ∀ x ∈ xs, x.home ≠ id) :
    ofSection id xs = [] :=
  List.filter_eq_nil_iff.2 fun x inside same => elsewhere x inside (of_decide_eq_true same)

/-- Entries of a later section come last. -/
theorem bySection_append {id : SectionId} {es xs : List Entry} (some_ : id ≠ .custom)
    (earlier : ∀ x ∈ es, x.home.toNat < id.toNat) (here : ∀ x ∈ xs, x.home = id) :
    bySection (es ++ xs) = bySection es ++ xs := by
  have before (other : SectionId) (le : id.toNat ≤ other.toNat) : ofSection other es = [] :=
    ofSection_eq_nil fun x inside same => by
      have := earlier x inside
      rw [same] at this
      omega
  have alone : ofSection id xs = xs := ofSection_eq_self here
  have apart (other : SectionId) (ne : other ≠ id) : ofSection other xs = [] :=
    ofSection_eq_nil fun x inside same => ne (same.symm.trans (here x inside))
  simp only [bySection, SectionId.ordered, List.flatMap_cons, List.flatMap_nil, ofSection_append]
  cases id with
  | custom => exact absurd rfl some_
  | _ => simp (disch := decide) [before, alone, apart]

/-! ## Entries in a row -/

/-- A decoder that moved on by some bytes and kept all but entries. -/
structure Advances (n : Nat) (d d' : Decoder) : Prop where
  within : n ≤ d.reader.remaining
  reader : d'.reader = d.reader.advance n
  options : d'.options = d.options
  functionNames : d'.metadata.functionNames = d.metadata.functionNames
  nextSection : d'.nextSection = d.nextSection

/-- Decoders that advance one after the other. -/
theorem Advances.trans {n k : Nat} {d d' d'' : Decoder} (first : Advances n d d')
    (second : Advances k d' d'') : Advances (n + k) d d'' where
  within := by
    have := second.within
    rw [first.reader, Reader.remaining, Reader.advance, List.length_drop] at this
    have := first.within
    rw [Reader.remaining] at *
    omega
  reader := by rw [second.reader, first.reader, advance_advance]
  options := second.options.trans first.options
  functionNames := second.functionNames.trans first.functionNames
  nextSection := second.nextSection.trans first.nextSection

theorem Advances.refl (d : Decoder) : Advances 0 d d := ⟨Nat.zero_le _, rfl, rfl, rfl, rfl⟩

theorem Advances.of_onlyReads {n : Nat} {d d' : Decoder} (only : OnlyReads n d d') :
    Advances n d d' := by
  obtain ⟨within, _, _, rfl, -, -⟩ := only
  exact ⟨within, rfl, rfl, rfl, rfl⟩

/-- Recording an entry takes no more bytes. -/
theorem Advances.record {n : Nat} {d d' : Decoder} (advances : Advances n d d') (x : Entry) :
    Advances n d (x.record d') := { advances with }

/-- A decoder that read some entries of a section. -/
structure Entered (id : SectionId) (es xs : List Entry) (n : Nat) (d d' : Decoder) : Prop where
  advances : Advances n d d'
  holds : Holds (es ++ xs) d'
  anonymous : ∀ s ∈ d'.types, IsAnonymous s
  home : ∀ x ∈ xs, x.home = id
  labelled : ∀ x ∈ xs, x.Labelled
  inRange : ∀ x ∈ xs, x.InRange (es ++ xs)
  spelled : ∀ later, d'.types <+: later → (∀ s ∈ later, IsAnonymous s) →
    (∀ x ∈ xs, x.Fine later) ∧ (xs.flatMap (Entry.bytes later)).length ≤ n

/-- No entries were entered. -/
theorem Entered.nil {id : SectionId} {es : List Entry} {d : Decoder} (holds : Holds es d)
    (anonymous : ∀ s ∈ d.types, IsAnonymous s) : Entered id es [] 0 d d where
  advances := .refl d
  holds := by rwa [List.append_nil]
  anonymous := anonymous
  home := nofun
  labelled := nofun
  inRange := nofun
  spelled _ _ _ := ⟨nofun, Nat.le_refl 0⟩

theorem Holds.types_append {es xs : List Entry} {d d' : Decoder} (holds : Holds es d)
    (more : Holds (es ++ xs) d') : d.types <+: d'.types := by
  rw [holds.types, more.types, List.filterMap_append]
  exact List.prefix_append ..

/-- Entries that were entered after others. -/
theorem Entered.trans {id : SectionId} {es xs ys : List Entry} {n k : Nat} {d d' d'' : Decoder}
    (first : Entered id es xs n d d') (second : Entered id (es ++ xs) ys k d' d'') :
    Entered id es (xs ++ ys) (n + k) d d'' where
  advances := first.advances.trans second.advances
  holds := by rw [← List.append_assoc]; exact second.holds
  anonymous := second.anonymous
  home := List.forall_mem_append.2 ⟨first.home, second.home⟩
  labelled := List.forall_mem_append.2 ⟨first.labelled, second.labelled⟩
  inRange := by
    rw [← List.append_assoc]
    exact List.forall_mem_append.2
      ⟨fun x inside => (first.inRange x inside).append ys, second.inRange⟩
  spelled later extends_ anonymous := by
    have grown := first.holds.types_append second.holds
    obtain ⟨fine, size⟩ := first.spelled later (grown.trans extends_) anonymous
    obtain ⟨fine', size'⟩ := second.spelled later extends_ anonymous
    refine ⟨List.forall_mem_append.2 ⟨fine, fine'⟩, ?_⟩
    rw [List.flatMap_append, List.length_append]
    omega

/-- An export that was admitted is in range. -/
theorem Entry.inRange_of_admitted {es : List Entry} {d : Decoder} {x : Entry} (holds : Holds es d)
    (admitted : x.home = .exports → Admitted d x) : x.InRange es := by
  cases x with
  | exported name kind index =>
    have taken : index < (available d kind).2 := admitted rfl
    rwa [holds.available kind] at taken
  | _ => trivial

/-- Recording an entry adds its type, if it is one. -/
theorem types_record (d : Decoder) (x : Entry) : (x.record d).types = d.types ++ x.type?.toList :=
  rfl

/-- The types of a decoder have no names after an entry either. -/
theorem anonymous_record {T : List Signature} {d : Decoder} {x : Entry} (fine : x.Fine T)
    (anonymous : ∀ s ∈ d.types, IsAnonymous s) : ∀ s ∈ (x.record d).types, IsAnonymous s := by
  rw [types_record]
  refine List.forall_mem_append.2 ⟨anonymous, fun s inside => ?_⟩
  cases x with
  | type s' =>
    obtain rfl := List.mem_singleton.1 inside
    exact fine.1
  | _ => cases inside

/-- A decoder knows how many bytes it has read. -/
theorem Decode.OnlyReads.unique {n k : Nat} {d d' : Decoder} (only : OnlyReads n d d')
    (only' : OnlyReads k d d') : n = k := by
  have here := only.pos_eq
  rw [only'.pos_eq] at here
  omega

/-- A step of a section enters an entry that can be spelled in the bytes it took. -/
theorem entered_of_step {id : SectionId} {i : Nat} {es : List Entry} {d d' : Decoder}
    (holds : Holds es d) (anonymous : ∀ s ∈ d.types, IsAnonymous s)
    (ends : entryStep id i d = .ok () d') : ∃ x n, Entered id es [x] n d d' := by
  obtain ⟨x, e, reads, admitted, rfl⟩ := entryStep_eq_ok_iff.1 ends
  have sized (later : List Signature) (extends_ : d.types <+: later)
      (unnamed : ∀ s ∈ later, IsAnonymous s) :=
    takes_entry extends_ unnamed id i d x e rfl reads
  obtain ⟨n, only, home, fine, labelled, -⟩ := sized d.types (List.prefix_refl _) anonymous
  have holds' := holds.of_onlyReads only
  have anonymous' : ∀ s ∈ e.types, IsAnonymous s := by rwa [only.types_eq]
  refine ⟨x, n, (Advances.of_onlyReads only).record x, holds'.record x,
    anonymous_record fine anonymous', List.forall_mem_singleton.2 home,
    List.forall_mem_singleton.2 labelled, List.forall_mem_singleton.2 ?_, fun later extends_ unnamed => ?_⟩
  · exact (Entry.inRange_of_admitted holds' fun isExport =>
      admitted (home.symm.trans isExport)).append [x]
  · have earlier : d.types <+: (x.record e).types := by
      rw [types_record, only.types_eq]
      exact List.prefix_append ..
    obtain ⟨k, only', -, fine, -, size⟩ := sized later (earlier.trans extends_) unnamed
    obtain rfl := only.unique only'
    rw [List.flatMap_singleton]
    exact ⟨List.forall_mem_singleton.2 fine, size⟩

/-- A section enters its entries one after the other. -/
theorem entered_of_forEach {id : SectionId} {i k : Nat} {es : List Entry} {d d' : Decoder}
    (holds : Holds es d) (anonymous : ∀ s ∈ d.types, IsAnonymous s)
    (ends : forEach (entryStep id) i k d = .ok () d') :
    ∃ xs n, Entered id es xs n d d' ∧ xs.length = k := by
  induction k generalizing i es d with
  | zero =>
    cases ends
    exact ⟨[], 0, .nil holds anonymous, rfl⟩
  | succ k ih =>
    obtain ⟨⟨⟩, e, now, rest⟩ := run_bind_eq_ok_iff.1 ends
    obtain ⟨x, n, first⟩ := entered_of_step holds anonymous now
    obtain ⟨xs, l, others, count⟩ := ih first.holds first.anonymous rest
    exact ⟨x :: xs, n + l, first.trans others, by rw [List.length_cons, count]⟩

/-! ## Names in a row -/

/-- What is written of the name of a function. -/
def functionNameBytes (f : FunctionName) : List UInt8 := Encode.u32 f.index ++ Write.name f.value

/-- A name of a function that can be written. -/
def IsFunctionName (f : FunctionName) : Prop := f.index < UInt32.size ∧ Read.IsName f.value

/-- How many bytes the names of functions take. -/
def namesSize (fs : List FunctionName) : Nat := (fs.flatMap functionNameBytes).length

/-- Names in a row take the space of both lists. -/
theorem namesSize_append (fs gs : List FunctionName) :
    namesSize (fs ++ gs) = namesSize fs + namesSize gs := by
  rw [namesSize, List.flatMap_append, List.length_append]
  rfl

/-- A decoder that moved on by some bytes and read some names of functions. -/
def Named (fs : List FunctionName) (n : Nat) (d d' : Decoder) : Prop :=
  n ≤ d.reader.remaining ∧ (∃ names trace metadata,
    d' = { d with reader := d.reader.advance n, names := names, trace := trace, metadata := metadata } ∧
      names.count "func" = d.names.count "func" ∧ names.count "table" = d.names.count "table" ∧
      metadata.functionNames = d.metadata.functionNames ++ fs) ∧
    (∀ f ∈ fs, IsFunctionName f) ∧ namesSize fs ≤ n

/-- Reading alone gives no names. -/
theorem Named.of_onlyReads {n : Nat} {d d' : Decoder} (only : OnlyReads n d d') :
    Named [] n d d' := by
  obtain ⟨within, names, trace, rfl, funcs, tables⟩ := only
  exact ⟨within, ⟨names, trace, d.metadata, rfl, funcs, tables, (List.append_nil _).symm⟩, nofun,
    Nat.zero_le n⟩

/-- Names that were given after others. -/
theorem Named.trans {fs gs : List FunctionName} {n k : Nat} {d d' d'' : Decoder}
    (first : Named fs n d d') (second : Named gs k d' d'') : Named (fs ++ gs) (n + k) d d'' := by
  obtain ⟨within, ⟨_, _, _, rfl, funcs, tables, names⟩, fits, size⟩ := first
  obtain ⟨within', ⟨generator, trace, metadata, rfl, funcs', tables', names'⟩, fits', size'⟩ := second
  refine ⟨?_, ⟨generator, trace, metadata, ?_, funcs'.trans funcs, tables'.trans tables, ?_⟩,
    List.forall_mem_append.2 ⟨fits, fits'⟩, ?_⟩
  · simp only [Reader.remaining, Reader.advance, List.length_drop] at *
    omega
  · rw [advance_advance]
  · rw [names', names, List.append_assoc]
  · rw [namesSize_append]
    omega

/-- A step that reads names of functions and no entries. -/
def Naming {α : Type} (m : DecodeM α) : Prop :=
  ∀ d a d', m d = .ok a d' → ∃ fs n, Named fs n d d'

section Naming

variable {α β : Type} {m : DecodeM α} {f : α → DecodeM β}

/-- Two steps in a row give the names of both. -/
theorem Naming.bind (first : Naming m) (rest : ∀ a, Naming (f a)) : Naming (m >>= f) := by
  intro d b d' ends
  obtain ⟨a, e, here, there⟩ := run_bind_eq_ok_iff.1 ends
  obtain ⟨fs, n, now⟩ := first d a e here
  obtain ⟨gs, k, later⟩ := rest a e b d' there
  exact ⟨fs ++ gs, n + k, now.trans later⟩

/-- What only reads gives no names. -/
theorem naming_of_reading (reading : Reading m) : Naming m := fun d a d' ends =>
  let ⟨n, only⟩ := reading d a d' ends
  ⟨[], n, .of_onlyReads only⟩

/-- A change of the metadata that leaves the names of functions. -/
theorem naming_modifyMetadata (change : ModuleMetadata → ModuleMetadata)
    (same : ∀ metadata, (change metadata).functionNames = metadata.functionNames) :
    Naming (modifyMetadata change) := by
  intro d a d' ends
  cases ends
  exact ⟨[], 0, Nat.zero_le _, ⟨d.names, d.trace, _, rfl, rfl, rfl,
    (same _).trans (List.append_nil _).symm⟩, nofun, Nat.zero_le 0⟩

/-- Steps that give names, one for each number. -/
theorem naming_forEach {step : Nat → DecodeM Unit} (naming : ∀ i, Naming (step i)) (i n : Nat) :
    Naming (forEach step i n) := by
  induction n generalizing i with
  | zero => exact naming_of_reading (reading_pure ())
  | succ n ih => exact (naming i).bind fun _ => ih (i + 1)

/-- A name for a function is spelled in no more bytes than were read. -/
theorem takes_functionName {types : List Signature} : Takes types
    (fun f n => IsFunctionName f ∧ (functionNameBytes f).length ≤ n) functionName := by
  refine takes_u32.bind fun index n ⟨fits, size⟩ => takes_name.bind fun value k ⟨isName, size'⟩ =>
    takes_pure ⟨⟨fits, isName⟩, ?_⟩
  simp only [functionNameBytes, List.length_append]
  omega

/-- A function name that goes to the metadata. -/
def namedFunction : DecodeM Unit := do
  let name ← functionName
  modifyMetadata fun m => { m with functionNames := m.functionNames ++ [name] }

/-- A name for a function is given to it. -/
theorem naming_namedFunction : Naming namedFunction := by
  intro d a d' ends
  obtain ⟨name, e, reads, changes⟩ := run_bind_eq_ok_iff.1 ends
  obtain ⟨n, ⟨within, names, trace, rfl, funcs, tables⟩, fits, size⟩ :=
    takes_functionName d name e rfl reads
  cases changes
  refine ⟨[name], n, within, ⟨names, trace, _, rfl, funcs, tables, rfl⟩,
    List.forall_mem_singleton.2 fits, ?_⟩
  rw [namesSize, List.flatMap_singleton]
  exact size

end Naming

theorem Decode.reading_localNames : Reading localNames :=
  reading_u32.bind fun _ => reading_u32.bind fun count => reading_times (reading_u32.bind fun _ =>
    (reading_read Read.gives_name).bind fun _ => reading_pure _) count

/-- A part of a name section takes a byte more than the names in it. -/
theorem named_of_subsection {d d' : Decoder} (ends : nameSubsection d = .ok () d') :
    ∃ fs n, Named fs n d d' ∧ namesSize fs + 1 ≤ n := by
  obtain ⟨id, e, byte, rest⟩ := run_bind_eq_ok_iff.1 ends
  obtain ⟨n, only, rfl⟩ := takes_byte d id e rfl byte
  obtain ⟨fs, k, named⟩ : ∃ fs k, Named fs k e d' := by
    refine Naming.bind (naming_of_reading reading_u32) (fun size => ?_) e () d' rest
    refine (naming_of_reading reading_pos).bind fun here => ?_
    have last := naming_of_reading (reading_expectPosition (here + size) "name subsection")
    dsimp only
    split_ifs
    · exact (naming_of_reading (reading_read Read.gives_name)).bind fun value =>
        (naming_modifyMetadata (fun m => { m with moduleName := some ⟨value⟩ })
          fun _ => rfl).bind fun _ => last
    · exact (naming_of_reading reading_u32).bind fun count =>
        (naming_forEach (fun _ => naming_namedFunction) 0 count).bind fun _ => last
    · exact (naming_of_reading reading_u32).bind fun count =>
        (naming_forEach (fun _ => (naming_of_reading reading_localNames).bind fun names =>
          naming_modifyMetadata (fun m => { m with localNames := m.localNames ++ names })
            fun _ => rfl) 0 count).bind fun _ => last
    · exact (naming_of_reading (reading_skipTo _)).bind fun _ => last
  refine ⟨fs, 1 + k, (Named.of_onlyReads only).trans named, ?_⟩
  have := named.2.2.2
  omega

/-- Names take less than the parts of the name section, which begin with a byte each. -/
theorem named_of_subsections {stop fuel : Nat} {d d' : Decoder}
    (ends : nameSubsections stop fuel d = .ok () d') :
    ∃ fs n, Named fs n d d' ∧ (fs = [] ∨ namesSize fs + 1 ≤ n) := by
  induction fuel generalizing d with
  | zero =>
    cases ends
    exact ⟨[], 0, .of_onlyReads (.refl _), .inl rfl⟩
  | succ fuel ih =>
    rw [nameSubsections, bind_ok (show pos d = .ok d.reader.pos d from rfl)] at ends
    split_ifs at ends
    · obtain ⟨⟨⟩, e, now, rest⟩ := run_bind_eq_ok_iff.1 ends
      obtain ⟨fs, n, first, size⟩ := named_of_subsection now
      obtain ⟨gs, k, others, -⟩ := ih rest
      refine ⟨fs ++ gs, n + k, first.trans others, .inr ?_⟩
      have := others.2.2.2
      rw [namesSize_append]
      omega
    · cases ends
      exact ⟨[], 0, .of_onlyReads (.refl _), .inl rfl⟩

theorem length_name_name : (Write.name "name").length = 5 := by decide +kernel

/-- A custom section takes six bytes more than the names in it, if there are any. -/
theorem named_of_customSection {stop : Nat} {d d' : Decoder}
    (ends : customSection stop d = .ok () d') :
    ∃ fs n, Named fs n d d' ∧ (fs = [] ∨ namesSize fs + 6 ≤ n) := by
  obtain ⟨name, e, reads, rest⟩ := run_bind_eq_ok_iff.1 ends
  obtain ⟨n, only, -, size⟩ := takes_name d name e rfl reads
  rw [bind_ok (show (get : DecodeM Decoder) e = .ok e e from rfl)] at rest
  split_ifs at rest with isNames
  · rw [bind_ok (show (get : DecodeM Decoder) e = .ok e e from rfl)] at rest
    obtain ⟨fs, k, named, few⟩ := named_of_subsections rest
    refine ⟨fs, n + k, (Named.of_onlyReads only).trans named, few.imp_right fun few => ?_⟩
    rw [Bool.and_eq_true, beq_iff_eq] at isNames
    rw [isNames.1, length_name_name] at size
    omega
  · obtain ⟨k, only'⟩ := (reading_note _).bind (fun _ => reading_skipTo stop) e () d' rest
    exact ⟨[], n + k, .of_onlyReads (only.trans only'), .inl rfl⟩

/-! ## Sections -/

/-- The metadata of a section goes to the module. -/
def addSection (d : Decoder) (s : SectionMetadata) : Decoder :=
  { d with metadata := { d.metadata with sections := d.metadata.sections ++ [s] } }

/-- A section is its number, its size and its contents. -/
theorem readSection_eq_ok_iff {d d' : Decoder} : readSection d = .ok () d' ↔
    ∃ id d₁ size d₂ d₃ count d₄, sectionId d = .ok id d₁ ∧ read .u32 d₁ = .ok size d₂ ∧
      d₂.reader.hasAtLeast size = true ∧ note s!"section {id.name}" d₂ = .ok () d₃ ∧
      sectionBody id (d₂.reader.pos + size) d₃ = .ok count d₄ ∧
      d₄.reader.pos = d₂.reader.pos + size ∧
      d' = addSection d₄ ⟨id.name, d.reader.pos, .ofInt size, .ofInt count⟩ := by
  have get_eq (e : Decoder) : (get : DecodeM Decoder) e = .ok e e := rfl
  have pos_eq (e : Decoder) : pos e = .ok e.reader.pos e := rfl
  unfold readSection
  rw [bind_ok (pos_eq d)]
  constructor
  · intro ends
    obtain ⟨id, d₁, number, ends⟩ := run_bind_eq_ok_iff.1 ends
    obtain ⟨size, d₂, reads, ends⟩ := run_bind_eq_ok_iff.1 ends
    rw [bind_ok (pos_eq d₂), bind_ok (get_eq d₂)] at ends
    by_cases enough : d₂.reader.hasAtLeast size = true
    · simp only [enough, Bool.not_true, Bool.false_eq_true, if_false] at ends
      obtain ⟨_, d₃, notes, rest⟩ := run_bind_eq_ok_iff.1 ends
      obtain ⟨count, d₄, contents, rest⟩ := run_bind_eq_ok_iff.1 rest
      obtain ⟨_, d₅, stops, last⟩ := run_bind_eq_ok_iff.1 rest
      obtain ⟨stops, rfl⟩ := expectPosition_eq_ok_iff.1 stops
      cases last
      exact ⟨id, d₁, size, d₂, d₃, count, _, number, reads, enough, notes, contents, stops, rfl⟩
    · simp only [enough, Bool.not_false, if_true] at ends
      cases ends
  · rintro ⟨id, d₁, size, d₂, d₃, count, d₄, number, reads, enough, notes, contents, stops, rfl⟩
    have stops' := expectPosition_eq_ok stops "section"
    rw [bind_ok number, bind_ok reads, bind_ok (pos_eq d₂), bind_ok (get_eq d₂)]
    simp only [enough, Bool.not_true, Bool.false_eq_true, if_false]
    rw [bind_ok notes, bind_ok contents, bind_ok stops']
    rfl

/-- The number of a section lets only later ones follow, unless it is that of a custom section. -/
theorem sectionId_eq_ok {d d' : Decoder} {id : SectionId} (ends : sectionId d = .ok id d') :
    id = .custom ∧ OnlyReads 1 d d' ∨ id ≠ .custom ∧ d.nextSection ≤ id.toNat ∧
      ∃ e, OnlyReads 1 d e ∧ d' = { e with nextSection := id.toNat + 1 } := by
  obtain ⟨start, _, position, ends⟩ := run_bind_eq_ok_iff.1 ends
  cases position
  obtain ⟨byte, e, reads, ends⟩ := run_bind_eq_ok_iff.1 ends
  obtain ⟨n, only, rfl⟩ := takes_byte d byte e rfl reads
  cases known : SectionId.ofNat? byte.toNat with
  | none =>
    simp only [known] at ends
    cases ends
  | some other =>
    by_cases isCustom : other = .custom
    · subst isCustom
      simp only [known] at ends
      cases ends
      exact .inl ⟨rfl, only⟩
    · have step : (do
          if other.toNat < (← get).nextSection then failAt d.reader.pos (.unexpectedSection byte.toNat)
          modify fun d => { d with nextSection := other.toNat + 1 }
          return other : DecodeM SectionId) e = .ok id d' := by
        cases other with
        | custom => exact absurd rfl isCustom
        | _ => simpa only [known] using ends
      rw [bind_ok (show (get : DecodeM Decoder) e = .ok e e from rfl)] at step
      split_ifs at step with late
      · cases step
      · cases step
        rw [(Advances.of_onlyReads only).nextSection] at late
        exact .inr ⟨isCustom, Nat.not_lt.1 late, e, only, rfl⟩

/-- What a section says is entered entry by entry. -/
structure Contained (id : SectionId) (es xs : List Entry) (n : Nat) (d d' : Decoder) : Prop where
  entered : Entered id es xs n d d'
  count : xs.length < UInt32.size
  single : id = .start → xs.length = 1
  compact : ∀ later, d'.types <+: later → (∀ s ∈ later, IsAnonymous s) →
    (sectionContents later id xs).length ≤ n

/-- Neither the bodies of functions nor data segments are passed over. -/
structure DecoderOptions.Complete (o : DecoderOptions) : Prop where
  code : o.ignoreCodeSection = false
  data : o.ignoreDataSection = false

theorem DecoderOptions.complete_default : DecoderOptions.default.Complete := ⟨rfl, rfl⟩

/-- Options pass over the entries of a section. -/
def DecoderOptions.PassesOver (o : DecoderOptions) (id : SectionId) : Prop :=
  id = .code ∧ o.ignoreCodeSection = true ∨ id = .data ∧ o.ignoreDataSection = true

/-- With complete options no section is passed over. -/
theorem DecoderOptions.Complete.reads {o : DecoderOptions} (complete : o.Complete) (id : SectionId) :
    ¬o.PassesOver id := by
  rintro (⟨-, ignored⟩ | ⟨-, ignored⟩)
  · cases ignored.symm.trans complete.code
  · cases ignored.symm.trans complete.data

/-- A section that is passed over is skipped as a whole. -/
theorem vectorSection_of_passes {id : SectionId} {d : Decoder} (passes : d.options.PassesOver id)
    (count stop : Nat) : vectorSection id count stop d = skipTo stop d := by
  have get_eq : (get : DecodeM Decoder) d = .ok d d := rfl
  rw [vectorSection, bind_ok get_eq]
  obtain ⟨rfl, ignored⟩ | ⟨rfl, ignored⟩ := passes
  · simp only [ignored, if_true]
  · simp only [ignored, if_true]

/-- A section that is not passed over is read entry by entry. -/
theorem vectorSection_of_reads {id : SectionId} (some_ : id ≠ .custom) (notStart : id ≠ .start)
    {d : Decoder} (reads : ¬d.options.PassesOver id) (count stop : Nat) :
    vectorSection id count stop d = forEach (entryStep id) 0 count d := by
  have get_eq : (get : DecodeM Decoder) d = .ok d d := rfl
  rw [vectorSection, bind_ok get_eq]
  cases id with
  | custom => exact absurd rfl some_
  | start => exact absurd rfl notStart
  | code => rw [if_neg fun ignored => reads (.inl ⟨rfl, ignored⟩)]; rfl
  | data => rw [if_neg fun ignored => reads (.inr ⟨rfl, ignored⟩)]; rfl
  | _ => rfl

/-- With complete options any section is read entry by entry. -/
theorem vectorSection_eq {id : SectionId} (some_ : id ≠ .custom) (notStart : id ≠ .start)
    {d : Decoder} (complete : d.options.Complete) (count stop : Nat) :
    vectorSection id count stop d = forEach (entryStep id) 0 count d :=
  vectorSection_of_reads some_ notStart (complete.reads id) count stop

/-- A section of entries is its count and the entries. -/
theorem sectionBody_eq {id : SectionId} (some_ : id ≠ .custom) (notStart : id ≠ .start)
    (stop : Nat) : sectionBody id stop = (do
      let count ← read .u32
      note s!"{count} entries"
      vectorSection id count stop
      return count) := by
  cases id with
  | custom => exact absurd rfl some_
  | start => exact absurd rfl notStart
  | _ => rfl

/-- The start section is read as one entry. -/
theorem step_of_startBody {stop result : Nat} {d d' : Decoder}
    (ends : sectionBody .start stop d = .ok result d') : entryStep .start 0 d = .ok () d' := by
  obtain ⟨⟨⟩, _, starts, last⟩ := run_bind_eq_ok_iff.1 ends
  obtain ⟨-, rfl⟩ := run_pure_eq_ok_iff.1 last
  exact starts

/-- A section that is a vector is read as its entries behind their count. -/
theorem entries_of_sectionBody {id : SectionId} (some_ : id ≠ .custom) (notStart : id ≠ .start)
    {stop result : Nat} {d d' : Decoder} (options : d.options = .default)
    (ends : sectionBody id stop d = .ok result d') :
    ∃ count e t, read .u32 d = .ok count e ∧ OnlyReads 0 e t ∧
      forEach (entryStep id) 0 count t = .ok () d' := by
  rw [sectionBody_eq some_ notStart] at ends
  obtain ⟨count, e, reads, ends⟩ := run_bind_eq_ok_iff.1 ends
  obtain ⟨⟨⟩, t, notes, ends⟩ := run_bind_eq_ok_iff.1 ends
  obtain ⟨⟨⟩, _, entries, last⟩ := run_bind_eq_ok_iff.1 ends
  obtain ⟨-, rfl⟩ := run_pure_eq_ok_iff.1 last
  obtain ⟨_, only⟩ := reading_u32 d count e reads
  obtain ⟨_, only', rfl, -⟩ := takes_note _ e () t rfl notes
  have same : t.options = .default := (Advances.of_onlyReads (only.trans only')).options.trans options
  rw [vectorSection_eq some_ notStart (same ▸ DecoderOptions.complete_default)] at entries
  exact ⟨count, e, t, reads, only', entries⟩

/-- The entries after their count. -/
theorem contained_of_vector {id : SectionId} (some_ : id ≠ .custom) (notStart : id ≠ .start)
    {stop result : Nat} {es : List Entry} {d d' : Decoder} (options : d.options = .default)
    (holds : Holds es d) (anonymous : ∀ s ∈ d.types, IsAnonymous s)
    (ends : sectionBody id stop d = .ok result d') : ∃ xs n, Contained id es xs n d d' := by
  obtain ⟨count, e, t, reads, only', entries⟩ := entries_of_sectionBody some_ notStart options ends
  obtain ⟨n, only, fits, size⟩ := takes_u32 d count e rfl reads
  have before := only.trans only'
  have advances := Advances.of_onlyReads before
  obtain ⟨xs, l, entered, rfl⟩ := entered_of_forEach (holds.of_onlyReads before)
    (by rwa [before.types_eq]) entries
  refine ⟨xs, n + 0 + l, ⟨?_, entered.holds, entered.anonymous, entered.home, entered.labelled,
    entered.inRange, fun later extends_ unnamed => ?_⟩, fits, fun isStart => absurd isStart notStart,
    fun later extends_ unnamed => ?_⟩
  · exact advances.trans entered.advances
  · obtain ⟨fine, size'⟩ := entered.spelled later extends_ unnamed
    exact ⟨fine, by omega⟩
  · obtain ⟨-, size'⟩ := entered.spelled later extends_ unnamed
    rw [sectionContents, if_neg notStart, List.length_append]
    omega

/-- The start section has one entry. -/
theorem contained_of_start {stop result : Nat} {es : List Entry} {d d' : Decoder}
    (holds : Holds es d) (anonymous : ∀ s ∈ d.types, IsAnonymous s)
    (ends : sectionBody .start stop d = .ok result d') : ∃ xs n, Contained .start es xs n d d' := by
  obtain ⟨x, n, entered⟩ := entered_of_step holds anonymous (step_of_startBody ends)
  refine ⟨[x], n, entered, Nat.lt_of_le_of_lt (Nat.le_refl 1) (by decide), fun _ => rfl,
    fun later extends_ unnamed => ?_⟩
  rw [sectionContents, if_pos rfl]
  exact (entered.spelled later extends_ unnamed).2

/-- The entries of a section can be spelled in the bytes of the section. -/
theorem contained_of_section {id : SectionId} (some_ : id ≠ .custom) {stop result : Nat}
    {es : List Entry} {d d' : Decoder} (options : d.options = .default) (holds : Holds es d)
    (anonymous : ∀ s ∈ d.types, IsAnonymous s) (ends : sectionBody id stop d = .ok result d') :
    ∃ xs n, Contained id es xs n d d' := by
  by_cases isStart : id = .start
  · subst isStart
    exact contained_of_start holds anonymous ends
  · exact contained_of_vector some_ isStart options holds anonymous ends

/-! ## Modules -/

/-- What a decoder of some number of bytes knows between two sections. -/
structure Gathered (total : Nat) (es : List Entry) (d : Decoder) : Prop where
  options : d.options = .default
  holds : Holds es d
  anonymous : ∀ s ∈ d.types, IsAnonymous s
  grouped : bySection es = es
  earlier : ∀ x ∈ es, x.home.toNat < d.nextSection
  single : (ofSection .start es).length ≤ 1
  labelled : ∀ x ∈ es, x.Labelled
  inRange : ∀ x ∈ es, x.InRange es
  spelled : ∀ later, d.types <+: later → (∀ s ∈ later, IsAnonymous s) →
    (∀ x ∈ es, x.Fine later) ∧ ∀ id, Fits later id (ofSection id es)
  named : ∀ f ∈ d.metadata.functionNames, IsFunctionName f
  names : d.metadata.functionNames = [] ∨ namesSize d.metadata.functionNames + 16 ≤ d.reader.pos
  began : 8 ≤ d.reader.pos
  room : d.reader.size = total

theorem size_advance {r : Reader} {n : Nat} (within : n ≤ r.remaining) :
    (r.advance n).size = r.size := by
  simp only [Reader.size, Reader.advance, Reader.remaining, List.length_drop] at *
  omega

/-- Names change nothing of what a decoder knows of its entries. -/
theorem Holds.of_named {es : List Entry} {fs : List FunctionName} {n : Nat} {d d' : Decoder}
    (holds : Holds es d) (named : Named fs n d d') : Holds es d' := by
  obtain ⟨-, ⟨_, _, _, rfl, funcs, tables, -⟩, -⟩ := named
  exact { holds with
    funcNames := funcs.trans holds.funcNames
    tableNames := tables.trans holds.tableNames }

/-- A custom section brings in names only. -/
theorem Gathered.custom {total n : Nat} {es : List Entry} {fs : List FunctionName} {d d' : Decoder}
    (gathered : Gathered total es d) (named : Named fs n d d')
    (few : fs = [] ∨ namesSize fs + 8 ≤ n) (s : SectionMetadata) :
    Gathered total es (addSection d' s) := by
  have holds := gathered.holds.of_named named
  obtain ⟨within, ⟨_, _, _, rfl, funcs, tables, names⟩, fits, size⟩ := named
  refine { gathered with
    holds := { holds with }
    named := ?_
    names := ?_
    began := ?_
    room := (size_advance within).trans gathered.room }
  · show ∀ f ∈ _, IsFunctionName f
    rw [addSection, names]
    exact List.forall_mem_append.2 ⟨gathered.named, fits⟩
  · have began := gathered.began
    show _ ∨ _ ≤ d.reader.pos + n
    rw [addSection, names, namesSize_append]
    obtain none | some_ := gathered.names
    · rw [none, List.nil_append]
      refine few.imp_right fun few => ?_
      rw [show namesSize [] = 0 from rfl]
      omega
    · exact .inr (by omega)
  · exact Nat.le_trans gathered.began (Nat.le_add_right _ n)

/-- No entries fit any section. -/
theorem fits_nil (T : List Signature) (id : SectionId) : Fits T id [] := by
  refine ⟨by decide, ?_⟩
  unfold sectionContents
  split_ifs
  · exact show 0 < UInt32.size by decide
  · rw [List.flatMap_nil, List.append_nil, List.length_nil, u32_zero]
    decide

/-- A section of entries adds them to those of the sections before. -/
theorem Gathered.entries {id : SectionId} {es xs : List Entry} {total size n : Nat}
    {d e d' : Decoder} (gathered : Gathered total es d) (some_ : id ≠ .custom) (next : d.nextSection ≤ id.toNat)
    (contained : Contained id es xs n e d') (fits : n ≤ size) (small : size < UInt32.size)
    (options : e.options = .default) (position : 8 ≤ d'.reader.pos)
    (names : e.metadata.functionNames = d.metadata.functionNames)
    (moved : d.reader.pos ≤ d'.reader.pos) (room : d'.reader.size = total)
    (nextSection : d'.nextSection = id.toNat + 1) (s : SectionMetadata) :
    Gathered total (es ++ xs) (addSection d' s) := by
  obtain ⟨entered, count, single, compact⟩ := contained
  have earlier : ∀ x ∈ es, x.home.toNat < id.toNat := fun x inside =>
    Nat.lt_of_lt_of_le (gathered.earlier x inside) next
  have others : ofSection id es = [] := ofSection_eq_nil fun x inside same => by
    have := earlier x inside
    rw [same] at this
    omega
  have names' : (addSection d' s).metadata.functionNames = d.metadata.functionNames :=
    entered.advances.functionNames.trans names
  refine ⟨entered.advances.options.trans options, { entered.holds with }, entered.anonymous, ?_, ?_,
    ?_, List.forall_mem_append.2 ⟨gathered.labelled, entered.labelled⟩, ?_,
    fun later extends_ unnamed => ?_, ?_, ?_, position, room⟩
  · rw [bySection_append some_ earlier entered.home, gathered.grouped]
  · show ∀ x ∈ es ++ xs, x.home.toNat < d'.nextSection
    rw [nextSection]
    refine List.forall_mem_append.2 ⟨fun x inside => ?_, fun x inside => ?_⟩
    · exact Nat.lt_succ_of_lt (earlier x inside)
    · rw [entered.home x inside]
      exact Nat.lt_succ_self _
  · rw [ofSection_append, List.length_append]
    by_cases isStart : id = .start
    · subst isStart
      rw [others, ofSection_eq_self entered.home, single rfl]
      exact Nat.le_refl 1
    · have none : ofSection .start xs = [] := ofSection_eq_nil fun x inside same =>
        isStart ((entered.home x inside).symm.trans same)
      rw [none]
      exact gathered.single
  · exact List.forall_mem_append.2
      ⟨fun x inside => (gathered.inRange x inside).append xs, entered.inRange⟩
  · have grown := gathered.holds.types_append entered.holds
    obtain ⟨fine, spelled⟩ := gathered.spelled later (grown.trans extends_) unnamed
    obtain ⟨fine', -⟩ := entered.spelled later extends_ unnamed
    refine ⟨List.forall_mem_append.2 ⟨fine, fine'⟩, fun other => ?_⟩
    rw [ofSection_append]
    by_cases same : other = id
    · subst same
      rw [others, ofSection_eq_self entered.home, List.nil_append]
      exact ⟨count, by have := compact later extends_ unnamed; omega⟩
    · have none : ofSection other xs = [] := ofSection_eq_nil fun x inside home =>
        same (home.symm.trans (entered.home x inside))
      rw [none, List.append_nil]
      exact spelled other
  · rw [names']
    exact gathered.named
  · rw [names']
    exact gathered.names.imp_right fun few => Nat.le_trans few moved

theorem Advances.size_eq {n : Nat} {d d' : Decoder} (advances : Advances n d d') :
    d'.reader.size = d.reader.size := by
  rw [advances.reader, size_advance advances.within]

theorem Advances.pos_eq {n : Nat} {d d' : Decoder} (advances : Advances n d d') :
    d'.reader.pos = d.reader.pos + n := by
  rw [advances.reader]
  rfl

/-- A section adds the entries that it has to those gathered before. -/
theorem Gathered.section {total : Nat} {es : List Entry} {d d' : Decoder}
    (gathered : Gathered total es d) (ends : readSection d = .ok () d') :
    ∃ xs, Gathered total (es ++ xs) d' := by
  obtain ⟨id, d₁, size, d₂, d₃, count, d₄, number, reads, -, notes, contents, stops, rfl⟩ :=
    readSection_eq_ok_iff.1 ends
  obtain ⟨k, only, fits, short⟩ := takes_u32 d₁ size d₂ rfl reads
  obtain ⟨l, only', rfl, -⟩ := takes_note _ d₂ () d₃ rfl notes
  have some_ := length_u32_pos size
  obtain ⟨rfl, first⟩ | ⟨notCustom, next, e, first, rfl⟩ := sectionId_eq_ok number
  · obtain ⟨_, d₅, custom, last⟩ := run_bind_eq_ok_iff.1 contents
    obtain ⟨-, rfl⟩ := run_pure_eq_ok_iff.1 last
    obtain ⟨fs, n, named, few⟩ := named_of_customSection custom
    have before := first.trans (only.trans only')
    refine ⟨[], ?_⟩
    rw [List.append_nil]
    exact gathered.custom ((Named.of_onlyReads before).trans named) (few.imp_right fun few => by
      rw [List.nil_append]
      omega) _
  · have before := only.trans only'
    have advances := Advances.of_onlyReads before
    have earlier := Advances.of_onlyReads first
    have holds : Holds es { e with nextSection := id.toNat + 1 } :=
      { gathered.holds.of_onlyReads first with }
    obtain ⟨xs, n, contained⟩ := contained_of_section notCustom
      (advances.options.trans (earlier.options.trans gathered.options)) (holds.of_onlyReads before)
      (by rw [before.types_eq]; exact first.types_eq ▸ gathered.anonymous) contents
    have moved := contained.entered.advances.pos_eq
    have here := advances.pos_eq
    have there : e.reader.pos = d.reader.pos + 1 := earlier.pos_eq
    have began := gathered.began
    have stopped : d₂.reader.pos = e.reader.pos + k := only.pos_eq
    have d₃pos : d₃.reader.pos = e.reader.pos + (k + 0) := here
    have room : d₄.reader.size = total :=
      calc d₄.reader.size = d₃.reader.size := contained.entered.advances.size_eq
        _ = e.reader.size := advances.size_eq
        _ = d.reader.size := earlier.size_eq
        _ = total := gathered.room
    refine ⟨xs, gathered.entries notCustom next contained (by omega) fits
      (advances.options.trans (earlier.options.trans gathered.options)) (by omega)
      (advances.functionNames.trans earlier.functionNames) (by omega) room ?_ _⟩
    exact contained.entered.advances.nextSection.trans advances.nextSection

/-- All sections together gather the entries of the input. -/
theorem Gathered.sections {total fuel : Nat} {es : List Entry} {d d' : Decoder}
    (gathered : Gathered total es d) (ends : readSections fuel d = .ok () d') :
    ∃ xs, Gathered total (es ++ xs) d' := by
  induction fuel generalizing es d with
  | zero =>
    cases ends
    exact ⟨[], by rwa [List.append_nil]⟩
  | succ fuel ih =>
    rw [readSections, bind_ok (show (get : DecodeM Decoder) d = .ok d d from rfl)] at ends
    split_ifs at ends
    · obtain ⟨⟨⟩, e, now, rest⟩ := run_bind_eq_ok_iff.1 ends
      obtain ⟨xs, gathered⟩ := gathered.section now
      obtain ⟨ys, gathered⟩ := ih gathered rest
      exact ⟨xs ++ ys, by rwa [← List.append_assoc]⟩
    · cases ends
      exact ⟨[], by rwa [List.append_nil]⟩

/-- The header takes eight bytes. -/
theorem takes_header {types : List Signature} : Takes types (fun _ n => n = 8) header := by
  refine (takes_read (Read.gives_bytes 4)).bind fun magic n ⟨_, four⟩ => ?_
  split_ifs
  · exact takes_refused
  · refine (takes_note _).after fun _ _ => (takes_read (Read.gives_bytes 4)).bind
      fun version k ⟨_, four'⟩ => ?_
    split_ifs
    · exact takes_refused
    · refine (takes_note _).mono fun _ l still => ?_
      omega

/-- Behind the header nothing is gathered yet. -/
theorem gathered_of_header {bytes : List UInt8} {d : Decoder}
    (ends : header (.start .default bytes) = .ok () d) : Gathered bytes.length [] d := by
  obtain ⟨n, only, rfl⟩ := takes_header _ () d rfl ends
  have advances := Advances.of_onlyReads only
  have start : Holds [] (.start .default bytes) :=
    ⟨rfl, rfl, rfl, rfl, rfl, rfl, rfl, rfl, rfl, rfl⟩
  have names : d.metadata.functionNames = [] := advances.functionNames
  refine ⟨advances.options, start.of_onlyReads only, ?_, rfl, nofun, Nat.zero_le 1, nofun, nofun,
    fun later _ _ => ⟨nofun, fits_nil later⟩, ?_, .inl names, ?_, ?_⟩
  · rw [only.types_eq]
    nofun
  · rw [names]
    nofun
  · rw [advances.pos_eq]
    exact Nat.le_add_left 8 _
  · rw [advances.size_eq, Reader.size]
    exact Nat.zero_add _

end WasmEngine.Binary
