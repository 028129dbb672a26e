import WasmEngine.Proofs.Binary.SectionReading

/-!
# Sections are spelled again

The entries of a module and the names of its functions are written section by section, and what is
written is read as the same entries up to the names of labels and the sizes of bodies (`Restores`).
-/

namespace WasmEngine.Binary

open Outcome Decode

/-- What is written of a section, nothing if it has no entries. -/
def sectionBytes (T : List Signature) (id : SectionId) (xs : List Entry) : List UInt8 :=
  if xs.isEmpty then [] else Write.sectionOf id.toByte (sectionContents T id xs)

/-- What is written of the names of functions inside the name section. -/
def namesBytes (fs : List FunctionName) : List UInt8 := Encode.vector functionNameBytes fs

/-- What is written in the name section after its size. -/
def nameContents (fs : List FunctionName) : List UInt8 :=
  Write.name "name" ++ 1 :: Write.byteVector (namesBytes fs)

/-- What is written of the name section, nothing if there are no names. -/
def nameSectionBytes (fs : List FunctionName) : List UInt8 :=
  if fs.isEmpty then [] else Write.sectionOf SectionId.custom.toByte (nameContents fs)

/-- What is written of entries and names of functions. -/
def moduleBytes (es : List Entry) (fs : List FunctionName) : List UInt8 :=
  Write.preamble ++ SectionId.ordered.flatMap (fun id => sectionBytes (typesOf es) id (ofSection id es))
    ++ nameSectionBytes fs

/-- Entries and names of functions that can be written and read again. -/
structure Writable (es : List Entry) (fs : List FunctionName) : Prop where
  fine : ∀ x ∈ es, x.Fine (typesOf es)
  inRange : ∀ x ∈ es, x.InRange es
  single : (ofSection .start es).length ≤ 1
  fits : ∀ id, Fits (typesOf es) id (ofSection id es)
  named : ∀ f ∈ fs, IsFunctionName f
  namesFit : (nameContents fs).length < UInt32.size

/-! ## Entries up to labels and sizes -/

namespace Entry

theorem home_plain (x : Entry) : x.plain.home = x.home := by cases x <;> rfl

theorem type?_plain (x : Entry) : x.plain.type? = x.type? := by cases x <;> rfl

theorem kind?_plain (x : Entry) : x.plain.kind? = x.kind? := by cases x <;> rfl

theorem inRange_plain (es : List Entry) (x : Entry) : x.plain.InRange es ↔ x.InRange es := by
  cases x <;> rfl

end Entry

/-- What is read back has the same types. -/
theorem typesOf_congr {xs ys : List Entry} (same : ys.map Entry.plain = xs.map Entry.plain) :
    typesOf ys = typesOf xs := by
  have plain (zs : List Entry) : typesOf zs = (zs.map Entry.plain).filterMap Entry.type? := by
    rw [typesOf, List.filterMap_map]
    exact congrArg (List.filterMap · zs) (funext fun z => (Entry.type?_plain z).symm)
  rw [plain, same, ← plain]

/-- What is read back has the same index spaces. -/
theorem countOf_congr {xs ys : List Entry} (same : ys.map Entry.plain = xs.map Entry.plain)
    (kind : ExportKind) : countOf kind ys = countOf kind xs := by
  have plain (zs : List Entry) : countOf kind zs = (zs.map Entry.plain).countP (Entry.hasKind kind) := by
    rw [countOf, List.countP_map]
    refine List.countP_congr fun z _ => ?_
    rw [Function.comp, Entry.hasKind, Entry.hasKind, Entry.kind?_plain]
  rw [plain, same, ← plain]

/-! ## Entries in a row -/

variable {o : DecoderOptions} {later : List Signature} {id : SectionId} {es xs : List Entry} {d : Decoder}
  {rest : List UInt8}

/-- A decoder that read some entries in some bytes and has others before it. -/
structure Restores (es xs : List Entry) (n : Nat) (d d' : Decoder) (ys : List Entry) : Prop where
  same : ys.map Entry.plain = xs.map Entry.plain
  advances : Advances n d d'
  holds : Holds (es ++ ys) d'

/-- No entries are restored from no bytes. -/
theorem Restores.nil (holds : Holds es d) : Restores es [] 0 d d [] :=
  ⟨rfl, .refl d, by rwa [List.append_nil]⟩

/-- Entries are restored after others. -/
theorem Restores.trans {xs' ys ys' : List Entry} {n k : Nat} {d' d'' : Decoder}
    (first : Restores es xs n d d' ys) (second : Restores (es ++ ys) xs' k d' d'' ys') :
    Restores es (xs ++ xs') (n + k) d d'' (ys ++ ys') where
  same := by rw [List.map_append, List.map_append, first.same, second.same]
  advances := first.advances.trans second.advances
  holds := by rw [← List.append_assoc]; exact second.holds

/-- The types of a decoder grow in the type section only. -/
theorem Restores.known {ys : List Entry} {n : Nat} {d' : Decoder} (holds : Holds es d)
    (restores : Restores es xs n d d' ys) (home : ∀ x ∈ xs, x.home = id)
    (known : id = .type ∨ d.types = later) : id = .type ∨ d'.types = later := by
  refine or_iff_not_imp_left.2 fun notType => ?_
  have none : typesOf xs = [] := List.filterMap_eq_nil_iff.2 fun x inside => by
    have here := home x inside
    cases x with
    | type s => exact absurd here.symm notType
    | _ => rfl
  rw [restores.holds.types, List.filterMap_append, ← holds.types]
  show d.types ++ typesOf ys = later
  rw [typesOf_congr restores.same, none, List.append_nil]
  exact known.resolve_left notType

/-- An entry that can be spelled is restored from its bytes. -/
theorem restores_of_step {x : Entry} (holds : Holds es d) (fine : x.Fine later)
    (known : x.home = .type ∨ d.types = later) (inRange : x.InRange es) (i : Nat)
    (here : d.reader.rest = x.bytes later ++ rest) :
    ∃ y d', entryStep x.home i d = .ok () d' ∧
      Restores es [x] (x.bytes later).length d d' [y] := by
  obtain ⟨y, e, reads, only, same⟩ := rereads_entry fine known i d rest rfl here
  have holds' := holds.of_onlyReads only
  have inRange' : y.InRange es := by
    rwa [← Entry.inRange_plain, same, Entry.inRange_plain]
  have admitted : x.home = .exports → Admitted e y := fun _ => by
    cases y with
    | exported name kind index =>
      show index < (available e kind).2
      rw [holds'.available kind]
      exact inRange'
    | _ => trivial
  exact ⟨y, y.record e, entryStep_eq_ok_iff.2 ⟨y, e, reads, admitted, rfl⟩, congrArg (· :: []) same,
    (Advances.of_onlyReads only).record y, holds'.record y⟩

/-- What is behind the bytes that were passed. -/
theorem Advances.rest_eq {bytes : List UInt8} {d' : Decoder}
    (advances : Advances bytes.length d d') (here : d.reader.rest = bytes ++ rest) :
    d'.reader.rest = rest := by
  rw [advances.reader, rest_advance here]

theorem Decode.OnlyReads.rest_eq_of_zero {d' : Decoder} (only : OnlyReads 0 d d') :
    d'.reader.rest = d.reader.rest := by
  rw [only.reader_eq]
  rfl

/-- The entries of a section are restored one after the other. -/
theorem restores_of_forEach (holds : Holds es d) (home : ∀ x ∈ xs, x.home = id)
    (fine : ∀ x ∈ xs, x.Fine later) (known : id = .type ∨ d.types = later)
    (inRange : ∀ x ∈ xs, x.InRange es) (i : Nat)
    (here : d.reader.rest = xs.flatMap (Entry.bytes later) ++ rest) :
    ∃ ys d', forEach (entryStep id) i xs.length d = .ok () d' ∧
      Restores es xs (xs.flatMap (Entry.bytes later)).length d d' ys := by
  induction xs generalizing es d i with
  | nil => exact ⟨[], d, rfl, .nil holds⟩
  | cons x xs ih =>
    obtain ⟨rfl, home⟩ := List.forall_mem_cons.1 home
    obtain ⟨fine, fine'⟩ := List.forall_mem_cons.1 fine
    obtain ⟨inRange, inRange'⟩ := List.forall_mem_cons.1 inRange
    rw [List.flatMap_cons, List.append_assoc] at here
    obtain ⟨y, e, step, first⟩ := restores_of_step holds fine known inRange i here
    have known' := first.known holds (List.forall_mem_singleton.2 rfl) known
    obtain ⟨ys, d', steps, others⟩ := ih first.holds home fine' known'
      (fun z inside => (inRange' z inside).append [y]) (i + 1) (first.advances.rest_eq here)
    refine ⟨y :: ys, d', (bind_ok step).trans steps, ?_⟩
    rw [List.flatMap_cons, List.length_append]
    exact first.trans others

/-! ## Sections -/

/-- The contents of a section are restored. -/
theorem restores_of_contents (some_ : id ≠ .custom) (single : id = .start → xs.length = 1)
    (complete : d.options.Complete) (holds : Holds es d) (home : ∀ x ∈ xs, x.home = id)
    (fine : ∀ x ∈ xs, x.Fine later) (known : id = .type ∨ d.types = later)
    (inRange : ∀ x ∈ xs, x.InRange es) (fits : Fits later id xs) (stop : Nat)
    (here : d.reader.rest = sectionContents later id xs ++ rest) :
    ∃ ys count d', sectionBody id stop d = .ok count d' ∧
      Restores es xs (sectionContents later id xs).length d d' ys := by
  by_cases isStart : id = .start
  · subst isStart
    obtain ⟨x, rfl⟩ := List.length_eq_one_iff.1 (single rfl)
    rw [sectionContents, if_pos rfl] at here ⊢
    obtain ⟨ys, d', steps, restores⟩ := restores_of_forEach holds home fine known inRange 0 here
    obtain ⟨_, e, step, last⟩ := run_bind_eq_ok_iff.1 steps
    cases last
    exact ⟨ys, 0, d', bind_ok step, restores⟩
  · rw [sectionContents, if_neg isStart] at here ⊢
    rw [List.append_assoc] at here
    obtain ⟨_, e, reads, only, rfl⟩ := rereads_u32 fits.1 d _ rfl here
    obtain ⟨t, notes, only'⟩ := note_eq s!"{xs.length} entries" e
    have before := only.trans only'
    have advances := Advances.of_onlyReads before
    obtain ⟨ys, d', steps, restores⟩ := restores_of_forEach (holds.of_onlyReads before) home fine
      (by rwa [before.types_eq]) inRange 0 (advances.rest_eq here)
    refine ⟨ys, xs.length, d', ?_, restores.same, ?_, restores.holds⟩
    · rw [sectionBody_eq some_ isStart, bind_ok reads, bind_ok notes,
        bind_ok ((vectorSection_eq some_ isStart (advances.options ▸ complete) _ stop).trans steps)]
      rfl
    · rw [List.length_append]
      exact advances.trans restores.advances

/-- The byte of a section is known as its number. -/
theorem ofNat?_toByte (id : SectionId) : SectionId.ofNat? id.toByte.toNat = some id := by
  cases id <;> rfl

/-- The number of a section that may come now is read. -/
theorem sectionId_toByte (some_ : id ≠ .custom) (next : d.nextSection ≤ id.toNat)
    (here : d.reader.rest = id.toByte :: rest) :
    ∃ e, OnlyReads 1 d e ∧ sectionId d = .ok id { e with nextSection := id.toNat + 1 } := by
  obtain ⟨_, e, reads, only, rfl⟩ := rereads_byte id.toByte d rest rfl here
  have late : ¬ id.toNat < e.nextSection := by
    rw [(Advances.of_onlyReads only).nextSection]
    exact Nat.not_lt.2 next
  have step : sectionId d = (do
      if id.toNat < (← get).nextSection then
        failAt d.reader.pos (.unexpectedSection id.toByte.toNat)
      modify fun d => { d with nextSection := id.toNat + 1 }
      return id : DecodeM SectionId) e := by
    rw [sectionId, bind_ok (show pos d = .ok d.reader.pos d from rfl), bind_ok reads]
    simp only [ofNat?_toByte]
  refine ⟨e, only, ?_⟩
  rw [step, bind_ok (show (get : DecodeM Decoder) e = .ok e e from rfl), if_neg late]
  rfl

/-- A decoder with some options between two sections, at some bytes. -/
structure Stands (o : DecoderOptions) (es : List Entry) (fs : List FunctionName) (next : Nat) (rest : List UInt8)
    (d : Decoder) : Prop where
  options : d.options = o
  holds : Holds es d
  names : d.metadata.functionNames = fs
  next : d.nextSection ≤ next
  here : d.reader.rest = rest

/-- Bytes that stand there can be read. -/
theorem hasAtLeast_of_rest {bytes : List UInt8} (here : d.reader.rest = bytes ++ rest) :
    d.reader.hasAtLeast bytes.length = true := by
  rw [Reader.hasAtLeast, here, List.length_append]
  exact decide_eq_true (Nat.le_add_right _ _)

/-- A section that is written is read, whatever it leaves out. -/
theorem stands_of_section {fs : List FunctionName} (complete : o.Complete) (some_ : id ≠ .custom) (filled : xs ≠ [])
    (single : id = .start → xs.length = 1) (home : ∀ x ∈ xs, x.home = id)
    (fine : ∀ x ∈ xs, x.Fine later) (known : id = .type ∨ d.types = later)
    (inRange : ∀ x ∈ xs, x.InRange es) (fits : Fits later id xs)
    (stands : Stands o es fs id.toNat (sectionBytes later id xs ++ rest) d) :
    ∃ ys d', readSection d = .ok () d' ∧ ys.map Entry.plain = xs.map Entry.plain ∧
      Stands o (es ++ ys) fs (id.toNat + 1) rest d' := by
  obtain ⟨options, holds, names, next, here⟩ := stands
  rw [sectionBytes, if_neg (by simpa using filled), Write.sectionOf, Write.byteVector,
    Nat.mod_eq_of_lt fits.2, ← u32_eq fits.2, List.cons_append, List.append_assoc] at here
  obtain ⟨e, first, number⟩ := sectionId_toByte some_ next here
  have atSize : e.reader.rest = Encode.u32 (sectionContents later id xs).length ++
      (sectionContents later id xs ++ rest) := by
    have header : d.reader.rest = [id.toByte] ++ _ := here
    rw [first.reader_eq]
    exact rest_advance header
  obtain ⟨_, d₂, reads, only, rfl⟩ := rereads_u32 fits.2 { e with nextSection := id.toNat + 1 } _
    rfl atSize
  have atContents := (Advances.of_onlyReads only).rest_eq atSize
  obtain ⟨d₃, notes, only'⟩ := note_eq s!"section {id.name}" d₂
  have before := only.trans only'
  have advances := Advances.of_onlyReads before
  have earlier := Advances.of_onlyReads first
  have holds₁ : Holds es { e with nextSection := id.toNat + 1 } := { holds.of_onlyReads first with }
  have known₃ : id = .type ∨ d₃.types = later := by
    rw [before.types_eq]
    exact first.types_eq ▸ known
  obtain ⟨ys, count, d₄, contents, restores⟩ := restores_of_contents some_ single
    ((advances.options.trans (earlier.options.trans options)).symm ▸ complete) (holds₁.of_onlyReads before)
    home fine
    known₃ inRange fits (d₂.reader.pos + (sectionContents later id xs).length)
    (only'.rest_eq_of_zero.trans atContents)
  have stops : d₄.reader.pos = d₂.reader.pos + (sectionContents later id xs).length := by
    rw [restores.advances.pos_eq, only'.pos_eq, Nat.add_zero]
  refine ⟨ys, _, readSection_eq_ok_iff.2 ⟨id, _, _, d₂, d₃, count, d₄, number, reads,
    hasAtLeast_of_rest atContents, notes, contents, stops, rfl⟩, restores.same, ?_⟩
  refine ⟨?_, { restores.holds with }, ?_, ?_, ?_⟩
  · exact restores.advances.options.trans (advances.options.trans (earlier.options.trans options))
  · exact restores.advances.functionNames.trans
      (advances.functionNames.trans (earlier.functionNames.trans names))
  · exact Nat.le_of_eq (restores.advances.nextSection.trans advances.nextSection)
  · exact restores.advances.rest_eq (only'.rest_eq_of_zero.trans atContents)

/-- Reading sections goes on behind the first. -/
theorem readSections_of_section {fuel : Nat} {e : Decoder} (filled : d.reader.rest ≠ [])
    (step : readSection d = .ok () e) : readSections (fuel + 1) d = readSections fuel e := by
  have more : d.reader.atEnd = false := by simpa [Reader.atEnd] using filled
  rw [readSections, bind_ok (show (get : DecodeM Decoder) d = .ok d d from rfl)]
  simp only [more, Bool.not_false, if_true]
  exact bind_ok step

theorem mem_ofSection {x : Entry} : x ∈ ofSection id es ↔ x ∈ es ∧ x.home = id := by
  rw [ofSection, List.mem_filter, decide_eq_true_iff]

/-- What stands after some sections in a row were read. -/
structure Continues (o : DecoderOptions) (es xs : List Entry) (next fuel : Nat) (rest : List UInt8) (d : Decoder)
    (ys : List Entry) (fuel' : Nat) (d' : Decoder) : Prop where
  reads : readSections fuel d = readSections fuel' d'
  enough : d'.reader.remaining < fuel'
  same : ys.map Entry.plain = xs.map Entry.plain
  stands : Stands o (es ++ ys) [] next rest d'

/-- Sections after the exports fill no index space. -/
theorem countOf_late {zs : List Entry}
    (late : ∀ z ∈ zs, SectionId.exports.toNat ≤ z.home.toNat) (kind : ExportKind) :
    countOf kind zs = 0 := by
  refine List.countP_eq_zero.2 fun z inside taken => ?_
  have := late z inside
  cases z with
  | imported | func | table | memory | global => simp [SectionId.toNat] at this
  | _ => simp [Entry.hasKind] at taken

/-- An export is in range wherever the index spaces have the same sizes. -/
theorem Entry.InRange.congr {x : Entry} {es' : List Entry}
    (same : ∀ kind, countOf kind es' = countOf kind es) (inRange : x.InRange es) :
    x.InRange es' := by
  cases x with
  | exported name kind index => exact Nat.lt_of_lt_of_eq inRange (same kind).symm
  | _ => trivial

/-- What an export refers to comes before the exports. -/
theorem Entry.InRange.of_append {x : Entry} {zs : List Entry}
    (late : ∀ z ∈ zs, x.home.toNat ≤ z.home.toNat) (inRange : x.InRange (es ++ zs)) :
    x.InRange es := by
  cases x with
  | exported name kind index =>
    have none := countOf_late late kind
    have total : countOf kind (es ++ zs) = countOf kind es + countOf kind zs := List.countP_append
    exact Nat.lt_of_lt_of_eq inRange (by rw [total, none, Nat.add_zero])
  | _ => trivial

section Written

variable {all : List Entry} {fs : List FunctionName} (writable : Writable all fs) (complete : o.Complete)
include writable complete

/-- Reading goes on from one section to the next. -/
theorem continues_of_section {next fuel : Nat} (some_ : id ≠ .custom) (nextLe : next ≤ id.toNat)
    (known : id = .type ∨ d.types = typesOf all) (inRange : ∀ x ∈ ofSection id all, x.InRange es)
    (stands : Stands o es [] next (sectionBytes (typesOf all) id (ofSection id all) ++ rest) d)
    (enough : d.reader.remaining < fuel) :
    ∃ ys fuel' d', Continues o es (ofSection id all) (id.toNat + 1) fuel rest d ys fuel' d' := by
  by_cases filled : ofSection id all = []
  · rw [filled, sectionBytes, if_pos List.isEmpty_nil, List.nil_append] at stands
    refine ⟨[], fuel, d, rfl, enough, by rw [filled], ?_⟩
    rw [List.append_nil]
    exact { stands with next := Nat.le_trans stands.next (Nat.le_succ_of_le nextLe) }
  · have single : id = .start → (ofSection id all).length = 1 := by
      rintro rfl
      have := List.length_pos_iff.2 filled
      have := writable.single
      omega
    have fine : ∀ x ∈ ofSection id all, x.Fine (typesOf all) := fun x inside =>
      writable.fine x (mem_ofSection.1 inside).1
    obtain ⟨ys, e, step, same, after⟩ := stands_of_section complete some_ filled single
      (fun x inside => (mem_ofSection.1 inside).2) fine known inRange (writable.fits id)
      { stands with next := Nat.le_trans stands.next nextLe }
    have here := stands.here
    rw [sectionBytes, if_neg (by simpa using filled), Write.sectionOf, List.cons_append] at here
    obtain ⟨fuel, rfl⟩ : ∃ k, fuel = k + 1 := ⟨fuel - 1, by omega⟩
    refine ⟨ys, fuel, e, readSections_of_section (by rw [here]; nofun) step, ?_, same, after⟩
    rw [Reader.remaining, here, List.length_cons, List.length_append] at enough
    rw [Reader.remaining, after.here]
    omega

/-- Reading goes on through all sections in their order. -/
theorem continues_of_sections {ids : List SectionId}
    (ordered : ids.Pairwise fun i j => i.toNat < j.toNat)
    (kinds : ∀ id ∈ ids, id ≠ .custom ∧ id ≠ .type) {next fuel : Nat}
    (nextLe : ∀ id ∈ ids, next ≤ id.toNat) (known : d.types = typesOf all)
    (inRange : ∀ x ∈ all, x.InRange (es ++ ids.flatMap (ofSection · all)))
    (stands : Stands o es [] next
      (ids.flatMap (fun id => sectionBytes (typesOf all) id (ofSection id all)) ++ rest) d)
    (enough : d.reader.remaining < fuel) :
    ∃ ys next' fuel' d',
      Continues o es (ids.flatMap (ofSection · all)) next' fuel rest d ys fuel' d' := by
  induction ids generalizing es d next fuel with
  | nil => exact ⟨[], next, fuel, d, rfl, enough, rfl, by rwa [List.append_nil]⟩
  | cons id ids ih =>
    obtain ⟨later, ordered⟩ := List.pairwise_cons.1 ordered
    obtain ⟨⟨notCustom, notType⟩, kinds⟩ := List.forall_mem_cons.1 kinds
    obtain ⟨nextLe, -⟩ := List.forall_mem_cons.1 nextLe
    rw [List.flatMap_cons, List.append_assoc] at stands
    have late : ∀ z ∈ (id :: ids).flatMap (ofSection · all), id.toNat ≤ z.home.toNat := by
      intro z inside
      obtain ⟨other, listed, inside⟩ := List.mem_flatMap.1 inside
      rw [(mem_ofSection.1 inside).2]
      obtain rfl | listed := List.mem_cons.1 listed
      · exact Nat.le_refl _
      · exact Nat.le_of_lt (later other listed)
    have here : ∀ x ∈ ofSection id all, x.InRange es := fun x inside => by
      obtain ⟨listed, home⟩ := mem_ofSection.1 inside
      exact (inRange x listed).of_append (by rwa [home])
    obtain ⟨ys, fuel', e, first⟩ := continues_of_section writable complete notCustom nextLe (.inr known)
      here stands enough
    have noTypes : typesOf ys = [] := by
      rw [typesOf_congr first.same]
      refine List.filterMap_eq_nil_iff.2 fun x inside => ?_
      have home := (mem_ofSection.1 inside).2
      cases x with
      | type s => exact absurd home.symm notType
      | _ => rfl
    have types : e.types = typesOf all := by
      rw [first.stands.holds.types, List.filterMap_append, ← stands.holds.types]
      show d.types ++ typesOf ys = _
      rw [noTypes, List.append_nil, known]
    have counts (kind : ExportKind) : countOf kind ((es ++ ys) ++ ids.flatMap (ofSection · all)) =
        countOf kind (es ++ (id :: ids).flatMap (ofSection · all)) := by
      have same := countOf_congr first.same kind
      simp only [countOf, List.flatMap_cons, List.countP_append] at same ⊢
      omega
    obtain ⟨zs, next', fuel'', d', others⟩ := ih ordered kinds
      (fun other listed => later other listed) types
      (fun x listed => (inRange x listed).congr counts) first.stands first.enough
    refine ⟨ys ++ zs, next', fuel'', d', first.reads.trans others.reads, others.enough, ?_, ?_⟩
    · rw [List.map_append, List.flatMap_cons, List.map_append, first.same, others.same]
    · rw [← List.append_assoc]
      exact others.stands

end Written

/-! ## Names -/

theorem rereads_functionName {types : List Signature} {f : FunctionName} (fits : IsFunctionName f) :
    Rereads types (functionNameBytes f) functionName (· = f) :=
  (rereads_u32 fits.1).then ((rereads_name fits.2).map fun _ same => same ▸ rfl)

/-- A function name is read as it was written. -/
theorem named_of_functionName {f : FunctionName} (fits : IsFunctionName f)
    (here : d.reader.rest = functionNameBytes f ++ rest) :
    ∃ d', namedFunction d = .ok () d' ∧ Named [f] (functionNameBytes f).length d d' := by
  obtain ⟨_, e, reads, ⟨within, names, trace, rfl, funcs, tables⟩, rfl⟩ :=
    rereads_functionName fits d rest rfl here
  refine ⟨_, bind_ok reads, within, ⟨names, trace, _, rfl, funcs, tables, rfl⟩,
    List.forall_mem_singleton.2 fits, ?_⟩
  rw [namesSize, List.flatMap_singleton]

/-- What is behind the names that were read. -/
theorem Named.rest_eq {fs : List FunctionName} {bytes : List UInt8} {d' : Decoder}
    (named : Named fs bytes.length d d') (here : d.reader.rest = bytes ++ rest) :
    d'.reader.rest = rest := by
  obtain ⟨-, ⟨_, _, _, rfl, -⟩, -⟩ := named
  exact rest_advance here

theorem Named.pos_eq {fs : List FunctionName} {n : Nat} {d' : Decoder} (named : Named fs n d d') :
    d'.reader.pos = d.reader.pos + n := by
  obtain ⟨-, ⟨_, _, _, rfl, -⟩, -⟩ := named
  rfl

/-- Function names are read as they were written, one after the other. -/
theorem named_of_forEach {fs : List FunctionName} (fits : ∀ f ∈ fs, IsFunctionName f) (i : Nat)
    (here : d.reader.rest = fs.flatMap functionNameBytes ++ rest) :
    ∃ d', forEach (fun _ => namedFunction) i fs.length d = .ok () d' ∧
      Named fs (fs.flatMap functionNameBytes).length d d' := by
  induction fs generalizing d i with
  | nil => exact ⟨d, rfl, .of_onlyReads (.refl d)⟩
  | cons f fs ih =>
    obtain ⟨first, others⟩ := List.forall_mem_cons.1 fits
    rw [List.flatMap_cons, List.append_assoc] at here
    obtain ⟨e, step, named⟩ := named_of_functionName first here
    obtain ⟨d', steps, named'⟩ := ih others (i + 1) (named.rest_eq here)
    refine ⟨d', (bind_ok step).trans steps, ?_⟩
    rw [List.flatMap_cons, List.length_append]
    exact named.trans named'

/-- What is written of the names of functions as a part of the name section. -/
def subsectionBytes (fs : List FunctionName) : List UInt8 := 1 :: Write.byteVector (namesBytes fs)

/-- The subsection of function names is read as it was written. -/
theorem named_of_written {fs : List FunctionName} (few : fs.length < UInt32.size)
    (short : (namesBytes fs).length < UInt32.size) (fits : ∀ f ∈ fs, IsFunctionName f)
    (here : d.reader.rest = subsectionBytes fs ++ rest) :
    ∃ d', nameSubsection d = .ok () d' ∧ Named fs (subsectionBytes fs).length d d' := by
  have bytes : subsectionBytes fs = [1] ++ (Encode.u32 (namesBytes fs).length ++
      (Encode.u32 fs.length ++ fs.flatMap functionNameBytes)) := by
    rw [subsectionBytes, Write.byteVector, Nat.mod_eq_of_lt short, ← u32_eq short]
    rfl
  rw [bytes] at here ⊢
  simp only [List.append_assoc] at here
  obtain ⟨_, d₁, byte, only₁, rfl⟩ := rereads_byte 1 d _ rfl here
  have at₁ := (Advances.of_onlyReads only₁).rest_eq here
  obtain ⟨_, d₂, size, only₂, rfl⟩ := rereads_u32 short d₁ _ rfl at₁
  have at₂ := (Advances.of_onlyReads only₂).rest_eq at₁
  obtain ⟨_, d₃, count, only₃, rfl⟩ := rereads_u32 few d₂ _ rfl at₂
  have at₃ := (Advances.of_onlyReads only₃).rest_eq at₂
  obtain ⟨d₄, steps, named⟩ := named_of_forEach fits 0 at₃
  have stops : d₄.reader.pos = d₂.reader.pos + (namesBytes fs).length := by
    rw [named.pos_eq, only₃.pos_eq, namesBytes, Encode.vector, List.length_append, Nat.add_assoc]
  refine ⟨d₄, ?_, ?_⟩
  · have last := expectPosition_eq_ok stops "name subsection"
    rw [nameSubsection, bind_ok byte, bind_ok size,
      bind_ok (show pos d₂ = .ok d₂.reader.pos d₂ from rfl)]
    rw [if_neg (by decide), if_pos rfl, bind_ok count]
    exact (bind_ok steps).trans last
  · simp only [List.length_append]
    have before := (Named.of_onlyReads only₁).trans
      ((Named.of_onlyReads only₂).trans ((Named.of_onlyReads only₃).trans named))
    simpa only [List.nil_append] using before

/-- Nothing follows the names in the name section. -/
theorem nameSubsections_eq {stop fuel : Nat} {e : Decoder} (before : d.reader.pos < stop)
    (step : nameSubsection d = .ok () e) (stops : e.reader.pos = stop) :
    nameSubsections stop (fuel + 1) d = .ok () e := by
  rw [nameSubsections, bind_ok (show pos d = .ok d.reader.pos d from rfl), if_pos before,
    bind_ok step]
  cases fuel with
  | zero => rfl
  | succ fuel =>
    rw [nameSubsections, bind_ok (show pos e = .ok e.reader.pos e from rfl), stops,
      if_neg (Nat.lt_irrefl stop)]
    rfl

theorem isName_name : Read.IsName "name" := by
  have length : (Text.utf8Bytes "name").length = 4 := by decide +kernel
  rw [Read.IsName, length]
  decide

/-- The names that a decoder with some options takes from the name section. -/
def DecoderOptions.namesRead (o : DecoderOptions) (fs : List FunctionName) : List FunctionName :=
  if o.ignoreNameSection then [] else fs

/-- Skipping over bytes that stand there succeeds. -/
theorem skipTo_eq {bytes : List UInt8} (here : d.reader.rest = bytes ++ rest) :
    ∃ e, skipTo (d.reader.pos + bytes.length) d = .ok () e ∧ OnlyReads bytes.length d e := by
  have length : d.reader.pos + bytes.length - d.reader.pos = bytes.length := by omega
  have skips : Read.skip bytes.length d.reader = .ok () (d.reader.advance bytes.length) := by
    rw [Read.skip, hasAtLeast_of_rest here, if_pos rfl]
  refine ⟨{ d with reader := d.reader.advance bytes.length }, ?_, ?_, d.names, d.trace, rfl, rfl, rfl⟩
  · rw [skipTo, bind_ok (show pos d = .ok d.reader.pos d from rfl), length]
    simp only [Decode.read, skips]
  · rw [Reader.remaining, here, List.length_append]
    exact Nat.le_add_right _ _

/-- The name section is read as it was written. -/
theorem named_of_nameContents {fs : List FunctionName} (few : fs.length < UInt32.size)
    (short : (namesBytes fs).length < UInt32.size) (fits : ∀ f ∈ fs, IsFunctionName f)
    (options : d.options = o) (here : d.reader.rest = nameContents fs ++ rest) :
    ∃ d', customSection (d.reader.pos + (nameContents fs).length) d = .ok () d' ∧
      Named (o.namesRead fs) (nameContents fs).length d d' := by
  have bytes : nameContents fs = Write.name "name" ++ subsectionBytes fs := rfl
  rw [bytes] at here ⊢
  rw [List.append_assoc] at here
  obtain ⟨_, e, reads, only, rfl⟩ := rereads_name isName_name d _ rfl here
  have at_ := (Advances.of_onlyReads only).rest_eq here
  have get_eq : (get : DecodeM Decoder) e = .ok e e := rfl
  have same : e.options = o := (Advances.of_onlyReads only).options.trans options
  have whole : d.reader.pos + (Write.name "name" ++ subsectionBytes fs).length =
      e.reader.pos + (subsectionBytes fs).length := by
    rw [only.pos_eq, List.length_append, Nat.add_assoc]
  rw [customSection, bind_ok reads, bind_ok get_eq, same, beq_self_eq_true, Bool.true_and, whole,
    List.length_append, DecoderOptions.namesRead]
  cases o.ignoreNameSection with
  | true =>
    have passes (what : String) : ∃ d', (do note what; skipTo (e.reader.pos + (subsectionBytes fs).length)) e =
        .ok () d' ∧ Named [] ((Write.name "name").length + (subsectionBytes fs).length) d d' := by
      obtain ⟨t, notes, only'⟩ := note_eq what e
      obtain ⟨d', skips, only''⟩ := skipTo_eq (only'.rest_eq_of_zero.trans at_)
      rw [only'.pos_eq, Nat.add_zero] at skips
      have passed := Named.of_onlyReads (only.trans (only'.trans only''))
      rw [Nat.zero_add] at passed
      exact ⟨d', (bind_ok notes).trans skips, passed⟩
    exact passes _
  | false =>
    obtain ⟨d', step, named⟩ := named_of_written few short fits at_
    refine ⟨d', ?_, (Named.of_onlyReads only).trans named⟩
    have before : e.reader.pos < e.reader.pos + (subsectionBytes fs).length := by
      rw [subsectionBytes, List.length_cons]
      omega
    exact (bind_ok get_eq).trans (nameSubsections_eq before step named.pos_eq)

theorem length_le_namesSize (fs : List FunctionName) : fs.length ≤ namesSize fs :=
  length_le_flatMap fun f _ => by
    have some_ := length_u32_pos f.index
    rw [functionNameBytes, List.length_append]
    omega

/-- A section of names that was read is recorded. -/
theorem stands_of_named {fs : List FunctionName} {n next : Nat} {e : Decoder}
    (stands : Stands o es [] next rest d) (named : Named fs n d e) {rest' : List UInt8}
    (here : e.reader.rest = rest') (s : SectionMetadata) :
    Stands o es fs next rest' (addSection e s) := by
  have holds := stands.holds.of_named named
  obtain ⟨-, ⟨_, _, _, rfl, -, -, names⟩, -⟩ := named
  exact ⟨stands.options, { holds with }, by rw [addSection, names, stands.names]; rfl, stands.next,
    here⟩

/-- The name section is the last one. -/
theorem continues_of_names {all : List Entry} {fs : List FunctionName}
    (writable : Writable all fs) {next fuel : Nat}
    (stands : Stands o es [] next (nameSectionBytes fs) d) (enough : d.reader.remaining < fuel) :
    ∃ d', readSections fuel d = .ok () d' ∧ Stands o es (o.namesRead fs) next [] d' := by
  have atEnd {k : Nat} {e : Decoder} (done : e.reader.rest = []) : readSections k e = .ok () e := by
    cases k with
    | zero => rfl
    | succ k =>
      have last : e.reader.atEnd = true := by rw [Reader.atEnd, done]; rfl
      rw [readSections, bind_ok (show (get : DecodeM Decoder) e = .ok e e from rfl), last]
      rfl
  cases fs with
  | nil =>
    have none : o.namesRead [] = [] := ite_self _
    exact ⟨d, atEnd stands.here, none.symm ▸ stands⟩
  | cons f fs =>
    have fits := writable.namesFit
    have parts : (namesBytes (f :: fs)).length < UInt32.size ∧ (f :: fs).length < UInt32.size := by
      have entries := length_le_namesSize (f :: fs)
      simp only [nameContents, Write.byteVector, List.length_append, List.length_cons] at fits
      simp only [namesBytes, Encode.vector, List.length_append, namesSize] at fits entries ⊢
      omega
    have here := stands.here
    rw [nameSectionBytes, if_neg (by simp), Write.sectionOf, Write.byteVector,
      Nat.mod_eq_of_lt fits, ← u32_eq fits] at here
    obtain ⟨_, d₁, byte, only₁, rfl⟩ := rereads_byte SectionId.custom.toByte d _
      rfl here
    have at₁ := (Advances.of_onlyReads only₁).rest_eq here
    have number : sectionId d = .ok .custom d₁ := by
      rw [sectionId, bind_ok (show pos d = .ok d.reader.pos d from rfl), bind_ok byte]
      rfl
    obtain ⟨_, d₂, size, only₂, rfl⟩ := rereads_u32 fits d₁ _ rfl at₁
    have at₂ := (Advances.of_onlyReads only₂).rest_eq at₁
    obtain ⟨d₃, notes, only₃⟩ := note_eq s!"section {SectionId.custom.name}" d₂
    have before := only₁.trans (only₂.trans only₃)
    have at₃ : d₃.reader.rest = nameContents (f :: fs) ++ [] := by
      rw [List.append_nil]
      exact only₃.rest_eq_of_zero.trans at₂
    have options := (Advances.of_onlyReads before).options.trans stands.options
    obtain ⟨d₄, custom, named⟩ := named_of_nameContents parts.2 parts.1 writable.named options at₃
    have same : d₃.reader.pos = d₂.reader.pos := only₃.pos_eq
    rw [same] at custom
    have stops : d₄.reader.pos = d₂.reader.pos + (nameContents (f :: fs)).length := by
      rw [named.pos_eq, same]
    have step := readSection_eq_ok_iff.2 ⟨.custom, d₁, _, d₂, d₃, 0, d₄, number, size,
      hasAtLeast_of_rest (by rw [at₂, List.append_nil]), notes, bind_ok custom, stops, rfl⟩
    obtain ⟨fuel, rfl⟩ : ∃ k, fuel = k + 1 := ⟨fuel - 1, by omega⟩
    have done : d₄.reader.rest = [] := named.rest_eq at₃
    refine ⟨_, (readSections_of_section (by rw [here]; exact List.cons_ne_nil _ _) step).trans (atEnd done), ?_⟩
    have whole := (Named.of_onlyReads before).trans named
    exact stands_of_named stands whole done _

/-! ## Modules -/

/-- The header is read from the preamble. -/
theorem header_preamble (o : DecoderOptions) (rest : List UInt8) :
    ∃ d, header (.start o (Write.preamble ++ rest)) = .ok () d ∧
      OnlyReads 8 (.start o (Write.preamble ++ rest)) d := by
  have start : (Decoder.start o (Write.preamble ++ rest)).reader.rest =
      [0x00, 0x61, 0x73, 0x6d] ++ ([0x01, 0x00, 0x00, 0x00] ++ rest) := rfl
  obtain ⟨_, d₁, magic, only₁, rfl⟩ := rereads_read (Read.spells_bytes [0x00, 0x61, 0x73, 0x6d]) _ _
    rfl start
  obtain ⟨d₂, notes, only₂⟩ := note_eq "wasm magic header" d₁
  have before := only₁.trans only₂
  obtain ⟨_, d₃, version, only₃, rfl⟩ := rereads_read (Read.spells_bytes [0x01, 0x00, 0x00, 0x00]) d₂
    rest rfl ((Advances.of_onlyReads before).rest_eq start)
  obtain ⟨d₄, notes', only₄⟩ := note_eq "wasm version" d₃
  refine ⟨d₄, ?_, before.trans (only₃.trans only₄)⟩
  exact (bind_ok magic).trans ((bind_ok notes).trans ((bind_ok version).trans notes'))

/-- Behind the header nothing has been read yet. -/
theorem stands_start (o : DecoderOptions) (rest : List UInt8) {d : Decoder}
    (only : OnlyReads 8 (.start o (Write.preamble ++ rest)) d) : Stands o [] [] 1 rest d := by
  have start : Holds [] (.start o (Write.preamble ++ rest)) :=
    ⟨rfl, rfl, rfl, rfl, rfl, rfl, rfl, rfl, rfl, rfl⟩
  have advances : Advances Write.preamble.length _ d := .of_onlyReads only
  have here : d.reader.rest = rest := advances.rest_eq rfl
  exact ⟨advances.options, start.of_onlyReads only, advances.functionNames,
    Nat.le_of_eq advances.nextSection, here⟩

theorem ordered_eq : SectionId.ordered = .type :: SectionId.ordered.tail := rfl

/-- What is written is read section by section. -/
theorem readSections_moduleBytes {fs : List FunctionName} (writable : Writable es fs)
    (complete : o.Complete) (grouped : bySection es = es) {fuel : Nat}
    (stands : Stands o [] [] 1 (SectionId.ordered.flatMap
      (fun id => sectionBytes (typesOf es) id (ofSection id es)) ++ nameSectionBytes fs) d)
    (enough : d.reader.remaining < fuel) :
    ∃ ys next d', readSections fuel d = .ok () d' ∧
      ys.map Entry.plain = es.map Entry.plain ∧ Stands o ys (o.namesRead fs) next [] d' := by
  rw [ordered_eq, List.flatMap_cons, List.append_assoc] at stands
  have noExports : ∀ x ∈ ofSection .type es, x.InRange [] := fun x inside => by
    have home := (mem_ofSection.1 inside).2
    cases x with
    | exported name kind index => cases home
    | _ => trivial
  obtain ⟨ts, fuel₁, d₁, first⟩ := continues_of_section writable complete (by decide)
    (Nat.le_refl 1) (.inl rfl) noExports stands enough
  have all : ofSection .type es ++ SectionId.ordered.tail.flatMap (ofSection · es) = es := grouped
  have types : d₁.types = typesOf es := by
    have others : typesOf (SectionId.ordered.tail.flatMap (ofSection · es)) = [] := by
      refine List.filterMap_eq_nil_iff.2 fun x inside => ?_
      obtain ⟨id, listed, inside⟩ := List.mem_flatMap.1 inside
      have home := (mem_ofSection.1 inside).2
      cases x with
      | type s =>
        subst home
        simp [SectionId.ordered] at listed
      | _ => rfl
    have whole : typesOf es = typesOf (ofSection .type es) ++
        typesOf (SectionId.ordered.tail.flatMap (ofSection · es)) := by
      conv_lhs => rw [← all]
      exact List.filterMap_append
    rw [first.stands.holds.types, List.nil_append, whole, others, List.append_nil]
    exact typesOf_congr first.same
  have counts (kind : ExportKind) :
      countOf kind (([] ++ ts) ++ SectionId.ordered.tail.flatMap (ofSection · es)) =
        countOf kind es := by
    have same := countOf_congr first.same kind
    conv_rhs => rw [← all]
    simp only [countOf, List.countP_append, List.nil_append] at same ⊢
    omega
  obtain ⟨zs, next, fuel₂, d₂, others⟩ := continues_of_sections writable
    complete (by decide) (by decide) (by decide) types
    (fun x listed => (writable.inRange x listed).congr counts) first.stands first.enough
  obtain ⟨d', reads, last⟩ := continues_of_names writable others.stands others.enough
  refine ⟨ts ++ zs, next, d', (first.reads.trans others.reads).trans reads, ?_, ?_⟩
  · rw [List.map_append, first.same, others.same, ← List.map_append, all]
  · simpa only [List.nil_append] using last

/-- What is written is decoded to the program of the same entries up to the names of labels and the
sizes of bodies. -/
theorem decode_moduleBytes {fs : List FunctionName} (writable : Writable es fs)
    (grouped : bySection es = es) (complete : o.Complete) :
    ∃ ys next d, ys.map Entry.plain = es.map Entry.plain ∧ Stands o ys (o.namesRead fs) next [] d ∧
      decode o (moduleBytes es fs) = finish d := by
  obtain ⟨d, begins, only⟩ := header_preamble o (SectionId.ordered.flatMap
    (fun id => sectionBytes (typesOf es) id (ofSection id es)) ++ nameSectionBytes fs)
  obtain ⟨ys, next, d', reads, same, stands⟩ := readSections_moduleBytes writable complete grouped
    (stands_start o _ only) (Nat.lt_succ_self _)
  refine ⟨ys, next, d', same, stands, ?_⟩
  rw [decode, decodeWithTrace, module, moduleBytes, List.append_assoc, bind_ok begins,
    bind_ok (show (get : DecodeM Decoder) d = .ok d d from rfl), bind_ok reads,
    bind_ok (show (get : DecodeM Decoder) d' = .ok d' d' from rfl)]
  cases finish d' with
  | ok program => rfl
  | error e => rfl

end WasmEngine.Binary
