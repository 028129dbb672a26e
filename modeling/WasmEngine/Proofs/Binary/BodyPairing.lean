import Mathlib.Data.List.Forall2
import WasmEngine.Proofs.Binary.Assembly
import WasmEngine.Proofs.Binary.RoundTrip
import WasmEngine.Proofs.Binary.SectionTiling

/-!
# Functions and their bodies

The entries of a section stand one after the other and fill it (`HasEntries`).  The functions of a decoded module
are the entries of the function section and of the code section taken together by position
(`bodies_of_decode`).  A function section with more entries than the code section is refused; bodies beyond
the last entry of the function section are dropped.
-/

namespace WasmEngine.Binary

open Outcome Decode

variable {α β : Type} {bytes : List UInt8}

/-! ## Rows -/

section Rows

variable {R : Reader → Reader → α → Prop} {R' : Reader → Reader → β → Prop} {r r' : Reader} {as : List α}

/-- A row of items is one of others that stand at the same places. -/
theorem Row.exists_forall₂ {Q : α → β → Prop} (row : Row R r r' as)
    (each : ∀ a ∈ as, ∀ s s', R s s' a → ∃ b, R' s s' b ∧ Q a b) :
    ∃ bs, Row R' r r' bs ∧ List.Forall₂ Q as bs := by
  induction row with
  | nil r => exact ⟨[], .nil r, .nil⟩
  | cons first _ ih =>
    obtain ⟨b, here, related⟩ := each _ List.mem_cons_self _ _ first
    obtain ⟨bs, row, others⟩ := ih fun a inside => each a (List.mem_cons_of_mem _ inside)
    exact ⟨b :: bs, .cons here row, .cons related others⟩

/-- Items that fill a section are read as others that stand at the same places. -/
theorem Filled.exists_forall₂ {Q : α → β → Prop} {begin stop : Nat} (filled : Filled bytes R begin stop as)
    (each : ∀ a ∈ as, ∀ s s', R s s' a → ∃ b, R' s s' b ∧ Q a b) :
    ∃ bs, Filled bytes R' begin stop bs ∧ List.Forall₂ Q as bs := by
  obtain ⟨r, count, row⟩ := filled
  obtain ⟨bs, row, related⟩ := row.exists_forall₂ each
  exact ⟨bs, ⟨r, related.length_eq ▸ count, row⟩, related⟩

/-- The entries of a section are read as others that stand at the same places. -/
theorem HasEntries.exists_forall₂ {id : SectionId} {ids : List SectionId} {ss : List SectionMetadata}
    {Q : α → β → Prop} (lists : HasEntries bytes id R ids ss as)
    (each : ∀ a ∈ as, ∀ s s', R s s' a → ∃ b, R' s s' b ∧ Q a b) :
    ∃ bs, HasEntries bytes id R' ids ss bs ∧ List.Forall₂ Q as bs := by
  induction lists with
  | absent => exact ⟨[], .absent, .nil⟩
  | here isSection filled single =>
    obtain ⟨bs, filled, related⟩ := filled.exists_forall₂ each
    exact ⟨bs, .here isSection filled single, related⟩
  | later ne _ ih =>
    obtain ⟨bs, lists, related⟩ := ih each
    exact ⟨bs, .later ne lists, related⟩

theorem Row.mono {R' : Reader → Reader → α → Prop} (row : Row R r r' as)
    (imp : ∀ s s' a, R s s' a → R' s s' a) : Row R' r r' as := by
  induction row with
  | nil r => exact .nil r
  | cons first _ ih => exact .cons (imp _ _ _ first) ih

/-- A section that is not there has no items. -/
theorem HasEntries.eq_nil {id : SectionId} {ids : List SectionId} {ss : List SectionMetadata}
    (lists : HasEntries bytes id R ids ss as) (absent : id ∉ ids) : as = [] := by
  induction lists with
  | absent => rfl
  | here => exact absurd List.mem_cons_self absent
  | later _ _ ih => exact ih fun inside => absent (List.mem_cons_of_mem _ inside)

end Rows

/-! ## Reading an entry -/

namespace Decode

theorem reading_imported : Reading imported := by
  refine reading_pos.bind fun start => reading_byte.bind fun kind => ?_
  split
  · exact reading_typeIndex.bind fun _ => reading_pure _
  · exact reading_tableLimits.bind fun _ => reading_pure _
  · exact reading_limits.bind fun _ => reading_pure _
  · exact reading_globalType.bind fun _ => reading_pure _
  · exact reading_failAt _ _

/-- A step that may be refused before it begins. -/
theorem reading_unless {c : Prop} [Decidable c] {offset : Nat} {kind : DecodeErrorKind}
    {f : Unit → DecodeM α} (rest : Reading (f ())) :
    Reading (if c then failAt offset kind >>= f else f ()) := by
  split
  · exact (reading_failAt _ _).bind fun _ => rest
  · exact rest

theorem gives_unless {p : α → Prop} {c : Prop} [Decidable c] {offset : Nat} {kind : DecodeErrorKind}
    {f : Unit → DecodeM α} (rest : Gives p (f ())) :
    Gives p (if c then failAt offset kind >>= f else f ()) := by
  split
  · exact Gives.then fun _ => rest
  · exact rest

theorem reading_localRuns (total n : Nat) : Reading (localRuns total n) := by
  induction n generalizing total with
  | zero => exact reading_pure []
  | succ n ih =>
    refine reading_u32.bind fun count => ?_
    have rest : Reading (do
        let type ← valtype
        let rest ← localRuns (total + count) n
        pure (List.replicate count type ++ rest)) :=
      reading_valtype.bind fun type => (ih _).bind fun rest => reading_pure _
    dsimp only
    split
    · exact (reading_fail _).bind fun _ => rest
    · exact rest

theorem reading_entry (id : SectionId) (i : Nat) : Reading (entry id i) := by
  cases id with
  | custom => exact reading_failAt _ _
  | type =>
    exact reading_pos.bind fun _ => reading_byte.bind fun _ => reading_unless <|
      (reading_note _).bind fun _ => reading_valtypes.bind fun _ => reading_valtypes.bind fun _ => reading_pure _
  | imports =>
    exact (reading_read Read.gives_name).bind fun _ => (reading_read Read.gives_name).bind fun _ =>
      (reading_note _).bind fun _ => reading_imported.bind fun _ => reading_pure _
  | function => exact reading_typeIndex.bind fun _ => reading_pure _
  | table => exact reading_tableLimits.bind fun _ => reading_pure _
  | memory => exact reading_limits.bind fun _ => reading_pure _
  | global => exact reading_globalType.bind fun _ => reading_expression.bind fun _ => reading_pure _
  | exports =>
    refine (reading_read Read.gives_name).bind fun _ => reading_pos.bind fun _ => reading_byte.bind fun byte =>
      reading_u32.bind fun _ => (reading_note _).bind fun _ => ?_
    split
    · exact reading_failAt _ _
    · exact reading_pure _
  | start => exact reading_u32.bind fun _ => (reading_note _).bind fun _ => reading_pure _
  | element =>
    exact reading_u32.bind fun _ => reading_expression.bind fun _ =>
      (reading_u32.bind fun count => reading_times reading_u32 count).bind fun _ => reading_pure _
  | code =>
    exact reading_u32.bind fun _ => Reading.bind
      (reading_pos.bind fun _ => Reading.bind
        ((reading_note _).bind fun _ => Reading.bind
          (reading_u32.bind fun runs => reading_localRuns 0 runs) fun _ =>
            reading_expression.bind fun _ => reading_pure _)
        fun _ => (reading_expectPosition _ _).bind fun _ => reading_pure _) fun _ => reading_pure _
  | data =>
    exact reading_u32.bind fun _ => reading_pos.bind fun _ => reading_expression.bind fun _ => reading_unless <|
      reading_u32.bind fun count => (reading_read (Read.gives_bytes count)).bind fun _ =>
        (reading_note _).bind fun _ => reading_pure _

/-- What is read in a section is an entry of that section. -/
theorem gives_home (id : SectionId) (i : Nat) : Gives (·.home = id) (entry id i) := by
  cases id with
  | custom => exact gives_failAt
  | type =>
    exact Gives.then fun _ => Gives.then fun _ => gives_unless <|
      Gives.then fun _ => Gives.then fun _ => Gives.then fun _ => gives_pure rfl
  | imports =>
    exact Gives.then fun _ => Gives.then fun _ => Gives.then fun _ => Gives.then fun _ => gives_pure rfl
  | function => exact Gives.then fun _ => gives_pure rfl
  | table => exact Gives.then fun _ => gives_pure rfl
  | memory => exact Gives.then fun _ => gives_pure rfl
  | global => exact Gives.then fun _ => Gives.then fun _ => gives_pure rfl
  | exports =>
    refine Gives.then fun _ => Gives.then fun _ => Gives.then fun byte => Gives.then fun _ =>
      Gives.then fun _ => ?_
    split
    · exact gives_failAt
    · exact gives_pure rfl
  | start => exact Gives.then fun _ => Gives.then fun _ => gives_pure rfl
  | element => exact Gives.then fun _ => Gives.then fun _ => Gives.then fun _ => gives_pure rfl
  | code => exact Gives.then fun _ => Gives.then fun _ => gives_pure rfl
  | data =>
    exact Gives.then fun _ => Gives.then fun _ => Gives.then fun _ => gives_unless <|
      Gives.then fun _ => Gives.then fun _ => Gives.then fun _ => gives_pure rfl

end Decode

/-! ## What a decoder adds -/

/-- The signatures of the functions that wait for a body. -/
def ownSignatures (d : Decoder) : List Signature := (defined 0 d.functions).map (·.1.signature)

/-- A decoder after it recorded some entries. -/
structure Adds (xs : List Entry) (d d' : Decoder) : Prop where
  options : d'.options = d.options
  types : d'.types = d.types ++ typesOf xs
  code : d'.code = d.code ++ codeOf xs
  signatures : ownSignatures d' = ownSignatures d ++ signaturesOf xs

section Adds

variable {xs ys : List Entry} {d e d' : Decoder}

/-- Entries that are added after others. -/
theorem Adds.trans (first : Adds xs d e) (rest : Adds ys e d') : Adds (xs ++ ys) d d' where
  options := rest.options.trans first.options
  types := by rw [rest.types, first.types, List.append_assoc, typesOf, typesOf, typesOf, List.filterMap_append]
  code := by rw [rest.code, first.code, List.append_assoc, codeOf, codeOf, codeOf, List.filterMap_append]
  signatures := by
    rw [rest.signatures, first.signatures, List.append_assoc, signaturesOf, signaturesOf, signaturesOf,
      List.filterMap_append]

theorem Adds.of_sameEntries (same : SameEntries d d') : Adds [] d d' where
  options := same.options
  types := same.types.trans (List.append_nil _).symm
  code := same.code.trans (List.append_nil _).symm
  signatures := by rw [ownSignatures, same.functions, ← ownSignatures]; exact (List.append_nil _).symm

/-- Types are only added at the end. -/
theorem Adds.prefix_types (adds : Adds xs d d') : d.types <+: d'.types := by
  rw [adds.types]
  exact List.prefix_append ..

/-- A function that is declared last is defined last, unless it is imported. -/
theorem defined_concat (i : Nat) (fs : List DeclaredFunc) (f : DeclaredFunc) :
    (defined i (fs ++ [f])).map (·.1.signature) =
      (defined i fs).map (·.1.signature) ++ if f.isImported then [] else [f.signature] := by
  rw [defined, List.zipIdx_append, List.filter_append, List.map_append, ← defined]
  congr 1
  cases own : f.isImported <;> simp [own]

/-- Recording an entry adds it. -/
theorem adds_record (d : Decoder) (x : Entry) : Adds [x] d (x.record d) where
  options := rfl
  types := by
    show d.types ++ x.type?.toList = d.types ++ [x].filterMap Entry.type?
    cases x <;> rfl
  code := by
    show d.code ++ x.code?.toList = d.code ++ [x].filterMap Entry.code?
    cases x <;> rfl
  signatures := by
    show (defined 0 (d.functions ++ (x.declared (d.names.count "func")).toList)).map _ =
      ownSignatures d ++ [x].filterMap Entry.signature?
    have unchanged : (defined 0 (d.functions ++ [])).map (·.1.signature) = ownSignatures d ++ [] := by
      rw [List.append_nil, List.append_nil, ownSignatures]
    cases x with
    | func s => exact defined_concat 0 _ _
    | imported module name what =>
      cases what with
      | func s => exact defined_concat 0 _ _
      | _ => exact unchanged
    | _ => exact unchanged

end Adds

/-! ## Sections -/

/-- An entry of a section that refers to some types. -/
def EntryAt (types : List Signature) (id : SectionId) (r r' : Reader) (x : Entry) : Prop :=
  ∃ i d d', d.reader = r ∧ d.types <+: types ∧ entry id i d = .ok x d' ∧ d'.reader = r'

/-- An entry is the same when more types are known. -/
theorem EntryAt.mono {types later : List Signature} {id : SectionId} {r r' : Reader} {x : Entry}
    (entryAt : EntryAt types id r r' x) (extends_ : types <+: later) : EntryAt later id r r' x := by
  obtain ⟨i, d, d', here, known, reads, there⟩ := entryAt
  exact ⟨i, d, d', here, known.trans extends_, reads, there⟩

section Sections

variable {id : SectionId} {d e d' : Decoder}

/-- A step of a section adds the entry that it read. -/
theorem adds_of_step {i : Nat} (ends : entryStep id i d = .ok () d') : ∃ x, Adds [x] d d' ∧ x.home = id ∧
    EntryAt d'.types id d.reader d'.reader x := by
  obtain ⟨x, e, reads, -, rfl⟩ := entryStep_eq_ok_iff.1 ends
  obtain ⟨n, only⟩ := reading_entry id i d x e reads
  have adds := (Adds.of_sameEntries only.sameEntries).trans (adds_record e x)
  exact ⟨x, adds, gives_home id i d x e reads, i, d, e, rfl, adds.prefix_types, reads, rfl⟩

/-- A section adds its entries one after the other. -/
theorem adds_of_forEach {i k : Nat} (ends : forEach (entryStep id) i k d = .ok () d') :
    ∃ xs, Adds xs d d' ∧ (∀ x ∈ xs, x.home = id) ∧ xs.length = k ∧
      Row (EntryAt d'.types id) d.reader d'.reader xs := by
  induction k generalizing i d with
  | zero =>
    cases ends
    exact ⟨[], .of_sameEntries ⟨rfl, rfl, rfl, rfl⟩, nofun, rfl, .nil _⟩
  | succ k ih =>
    obtain ⟨⟨⟩, e, now, rest⟩ := run_bind_eq_ok_iff.1 ends
    obtain ⟨x, first, home, here⟩ := adds_of_step now
    obtain ⟨xs, others, homes, count, row⟩ := ih rest
    refine ⟨x :: xs, first.trans others, List.forall_mem_cons.2 ⟨home, homes⟩, ?_, ?_⟩
    · rw [List.length_cons, count]
    · exact .cons (here.mono others.prefix_types) row

/-- Custom sections add nothing. -/
theorem sameEntries_of_customSection {stop : Nat} (ends : customSection stop d = .ok () d') :
    SameEntries d d' := by
  obtain ⟨fs, n, named, -⟩ := named_of_customSection ends
  obtain ⟨-, ⟨_, _, _, rfl, -⟩, -⟩ := named
  exact ⟨rfl, rfl, rfl, rfl⟩

/-- Reading a section adds its entries, which fill it after their count. -/
theorem adds_of_sectionBody {stop result : Nat} (options : d.options = .default)
    (ends : sectionBody id stop d = .ok result d') : ∃ xs, Adds xs d d' ∧ (∀ x ∈ xs, x.home = id) ∧
      (id ≠ .custom → id ≠ .start → ∃ r, Read.u32 d.reader = .ok xs.length r ∧
        Row (EntryAt d'.types id) r d'.reader xs) := by
  by_cases isCustom : id = .custom
  · subst isCustom
    obtain ⟨_, e, custom, last⟩ := run_bind_eq_ok_iff.1 ends
    obtain ⟨-, rfl⟩ := run_pure_eq_ok_iff.1 last
    exact ⟨[], .of_sameEntries (sameEntries_of_customSection custom), nofun, fun some_ => absurd rfl some_⟩
  by_cases isStart : id = .start
  · subst isStart
    obtain ⟨x, adds, home, -⟩ := adds_of_step (step_of_startBody ends)
    exact ⟨[x], adds, List.forall_mem_singleton.2 home, fun _ notStart => absurd rfl notStart⟩
  obtain ⟨count, e, t, reads, only', entries⟩ := entries_of_sectionBody isCustom isStart options ends
  obtain ⟨n, only⟩ := reading_u32 d count e reads
  obtain ⟨xs, adds, home, rfl, row⟩ := adds_of_forEach entries
  refine ⟨xs, (Adds.of_sameEntries (only.trans only').sameEntries).trans adds, home, fun _ _ => ⟨t.reader, ?_, row⟩⟩
  obtain ⟨width, declared, moved⟩ := declared_of_u32 reads
  rw [only'.reader_eq, advance_zero, moved, Read.u32, Read.leb, declared]

/-- A section adds the entries that stand in it. -/
theorem adds_of_section {s : SectionMetadata} (options : d.options = .default)
    (records : Records bytes id d d' s) : ∃ width size xs, IsSection bytes id width size s ∧ Adds xs d d' ∧
      (∀ x ∈ xs, x.home = id) ∧ (id ≠ .custom → id ≠ .start → Filled bytes (EntryAt d'.types id)
        (s.startOffset + 1 + width) (s.startOffset + 1 + width + size) xs) := by
  obtain ⟨width, size, isSection, -, e, e', count, before, -, begins, ends, stops, after, -⟩ := records.place
  obtain ⟨xs, adds, home, row⟩ := adds_of_sectionBody (before.options.trans options) ends
  have whole := (Adds.of_sameEntries before).trans (adds.trans (.of_sameEntries after))
  rw [List.nil_append, List.append_nil] at whole
  refine ⟨width, size, xs, isSection, whole, home, fun some_ notStart => ?_⟩
  obtain ⟨r, reads, row⟩ := row some_ notStart
  rw [begins] at reads
  rw [stops, ← after.types] at row
  exact ⟨r, reads, row⟩

/-- The entries that are recorded are those that stand in the sections. -/
theorem Decode.Recorded.hasEntries {ids : List SectionId} {ss : List SectionMetadata} (options : d.options = .default)
    (recorded : Recorded bytes d ids ss d') : ∃ es, Adds es d d' ∧
      ∀ id, id ≠ .custom → id ≠ .start → HasEntries bytes id (EntryAt d'.types id) ids ss (ofSection id es) := by
  induction recorded with
  | done => exact ⟨[], .of_sameEntries ⟨rfl, rfl, rfl, rfl⟩, fun _ _ _ => .absent⟩
  | @more d e d' id s ids ss first rest ih =>
    obtain ⟨width, size, xs, isSection, adds, home, filled⟩ := adds_of_section options first
    obtain ⟨es, others, lists⟩ := ih (adds.options.trans options)
    refine ⟨xs ++ es, adds.trans others, fun wanted some_ notStart => ?_⟩
    have later := lists wanted some_ notStart
    rw [ofSection_append]
    by_cases same : id = wanted
    · subst same
      -- the sections that follow have greater numbers
      have single : id ∉ ids := by
        intro again
        obtain ⟨isCustom, -⟩ | ⟨-, -, next⟩ := first.next
        · exact some_ isCustom
        · have := rest.ordered.1 id again some_
          omega
      rw [later.eq_nil single, List.append_nil, ofSection_eq_self home]
      obtain ⟨r, count, row⟩ := filled some_ notStart
      exact .here isSection ⟨r, count, row.mono fun _ _ _ here => here.mono others.prefix_types⟩ single
    · rw [ofSection_eq_nil fun x inside isHome => same ((home x inside).symm.trans isHome), List.nil_append]
      exact .later same later

end Sections

/-! ## Entries as bytes -/

/-- The type index of a function. -/
def IndexAt (r r' : Reader) (index : Nat) : Prop := Read.u32 r = .ok index r'

namespace Decode

/-- A run of locals of one type. -/
def localRun : DecodeM (Nat × Valtype) := do
  let count ← read .u32
  let type ← valtype
  return (count, type)

/-- The runs of locals after their number. -/
def runsOfLocals : DecodeM (List (Nat × Valtype)) := do times localRun (← read .u32)

/-- The locals of a function are those of its runs. -/
theorem runs_of_localRuns {total n : Nat} {ts : List Valtype} {d d' : Decoder}
    (ends : localRuns total n d = .ok ts d') :
    ∃ runs, times localRun n d = .ok runs d' ∧ ts = Encode.expand runs := by
  induction n generalizing total ts d with
  | zero =>
    cases ends
    exact ⟨[], rfl, rfl⟩
  | succ n ih =>
    obtain ⟨count, e, reads, ends⟩ := run_bind_eq_ok_iff.1 ends
    dsimp only at ends
    split_ifs at ends
    · cases ends
    · obtain ⟨type, t, typed, ends⟩ := run_bind_eq_ok_iff.1 ends
      obtain ⟨rest, t', others, ends⟩ := run_bind_eq_ok_iff.1 ends
      obtain ⟨rfl, rfl⟩ := run_pure_eq_ok_iff.1 ends
      obtain ⟨runs, again, rfl⟩ := ih others
      have first : localRun d = .ok (count, type) t :=
        run_bind_eq_ok_iff.2 ⟨count, e, reads, run_bind_eq_ok_iff.2 ⟨type, t, typed, rfl⟩⟩
      refine ⟨(count, type) :: runs, run_bind_eq_ok_iff.2 ⟨_, t, first, ?_⟩, rfl⟩
      exact run_bind_eq_ok_iff.2 ⟨runs, t', again, rfl⟩

theorem read_eq_ok_iff {α : Type} {r : Read α} {a : α} {d d' : Decoder} :
    read r d = .ok a d' ↔ ∃ s, r d.reader = .ok a s ∧ d' = { d with reader := s } := by
  unfold read
  cases r d.reader with
  | ok b s =>
    constructor
    · intro ends
      cases ends
      exact ⟨s, rfl, rfl⟩
    · rintro ⟨s, given, rfl⟩
      cases given
      rfl
  | error e s =>
    constructor
    · intro ends
      cases ends
    · rintro ⟨s, given, -⟩
      cases given

end Decode

/-- An entry of the code section: a size and as many bytes, which are the runs of its locals and its
instructions. -/
def BodyAt (types : List Signature) (r r' : Reader) (entry : CodeEntry) : Prop :=
  ∃ d e d' runs, Read.u32 r = .ok entry.size d.reader ∧ d.types <+: types ∧
    runsOfLocals d = .ok runs e ∧ entry.locals = Encode.expand runs ∧
    expression e = .ok entry.body d' ∧ d'.reader = r' ∧ r'.pos = d.reader.pos + entry.size

/-- An entry of the function section is the number of a type. -/
theorem indexAt_of_entryAt {types : List Signature} {r r' : Reader} {x : Entry}
    (here : EntryAt types .function r r' x) :
    ∃ index, IndexAt r r' index ∧ ∃ s, x = .func s ∧ types[index]? = some s := by
  obtain ⟨i, d, d', rfl, known, ends, rfl⟩ := here
  obtain ⟨s, e, typed, last⟩ := run_bind_eq_ok_iff.1 ends
  obtain ⟨rfl, rfl⟩ := run_pure_eq_ok_iff.1 last
  rw [typeIndex, bind_ok (pos_eq d)] at typed
  obtain ⟨index, t, reads, noted⟩ := run_bind_eq_ok_iff.1 typed
  obtain ⟨_, t', notes, looks⟩ := run_bind_eq_ok_iff.1 noted
  rw [bind_ok (get_eq t')] at looks
  obtain ⟨_, only⟩ := reading_u32 d index t reads
  obtain ⟨_, only', rfl, -⟩ := takes_note _ t () t' rfl notes
  have types' : t'.types = d.types := (only.trans only').sameEntries.types
  obtain ⟨reader, given, rfl⟩ := read_eq_ok_iff.1 reads
  cases looked : t'.types[index]? with
  | none =>
    rw [looked] at looks
    cases looks
  | some s' =>
    rw [looked] at looks
    obtain ⟨rfl, rfl⟩ := run_pure_eq_ok_iff.1 looks
    refine ⟨index, ?_, s', rfl, ?_⟩
    · rw [IndexAt, given, only'.reader_eq]
      rfl
    · rw [types'] at looked
      obtain ⟨more, same⟩ := known
      obtain ⟨within, -⟩ := List.getElem?_eq_some_iff.1 looked
      rw [← same, List.getElem?_append_left within, looked]

/-- An entry of the code section is a body after its size. -/
theorem bodyAt_of_entryAt {types : List Signature} {r r' : Reader} {x : Entry}
    (here : EntryAt types .code r r' x) : ∃ entry, BodyAt types r r' entry ∧ x = .code entry := by
  obtain ⟨i, d, d', rfl, known, ends, rfl⟩ := here
  obtain ⟨size, e, reads, sized⟩ := run_bind_eq_ok_iff.1 ends
  obtain ⟨entry, t, frames, last⟩ := run_bind_eq_ok_iff.1 sized
  obtain ⟨rfl, rfl⟩ := run_pure_eq_ok_iff.1 last
  rw [framed, bind_ok (pos_eq e)] at frames
  obtain ⟨entry', t', inside, closes⟩ := run_bind_eq_ok_iff.1 frames
  obtain ⟨_, _, checks, same⟩ := run_bind_eq_ok_iff.1 closes
  obtain ⟨rfl, rfl⟩ := run_pure_eq_ok_iff.1 same
  obtain ⟨stops, rfl⟩ := expectPosition_eq_ok_iff.1 checks
  obtain ⟨_, e₁, notes, noted⟩ := run_bind_eq_ok_iff.1 inside
  obtain ⟨ts, e₂, declares, declared⟩ := run_bind_eq_ok_iff.1 noted
  obtain ⟨nodes, e₃, instructions, made⟩ := run_bind_eq_ok_iff.1 declared
  obtain ⟨rfl, rfl⟩ := run_pure_eq_ok_iff.1 made
  obtain ⟨k, u, counts, expands⟩ := run_bind_eq_ok_iff.1 declares
  obtain ⟨runs, again, rfl⟩ := runs_of_localRuns expands
  obtain ⟨_, only⟩ := reading_u32 d size e reads
  obtain ⟨_, only', rfl, -⟩ := takes_note _ e () e₁ rfl notes
  have types' : e₁.types = d.types := (only.trans only').sameEntries.types
  obtain ⟨reader, given, rfl⟩ := read_eq_ok_iff.1 reads
  have there : e₁.reader = reader := only'.reader_eq
  refine ⟨_, ⟨e₁, e₂, _, runs, ?_, ?_, ?_, rfl, instructions, rfl, ?_⟩, rfl⟩
  · rw [there]
    exact given
  · rw [types']
    exact known
  · exact run_bind_eq_ok_iff.2 ⟨k, u, counts, again⟩
  · rw [there]
    exact stops

/-- The signatures of a function section are those of its type numbers. -/
theorem signatures_of_forall₂ {types : List Signature} {xs : List Entry} {indices : List Nat}
    (same : List.Forall₂ (fun x index => ∃ s, x = .func s ∧ types[index]? = some s) xs indices) :
    List.Forall₂ (fun index s => types[index]? = some s) indices (signaturesOf xs) := by
  induction same with
  | nil => exact .nil
  | cons first _ ih =>
    obtain ⟨s, rfl, known⟩ := first
    exact .cons known ih

/-- The bodies of a code section are all its entries. -/
theorem codeOf_of_forall₂ {xs : List Entry} {entries : List CodeEntry}
    (same : List.Forall₂ (fun x entry => x = .code entry) xs entries) : codeOf xs = entries := by
  induction same with
  | nil => rfl
  | @cons _ entry _ _ first _ ih =>
    subst first
    exact congrArg (entry :: ·) ih

/-! ## Functions of two entries -/

theorem nameSlot_metadata (f : Func) (name : LocalName) : (nameSlot f name).metadata = f.metadata := by
  unfold nameSlot
  split
  · split <;> rfl
  · rfl

/-- A function that is put together keeps the size of its body. -/
theorem define_metadata (metadata : ModuleMetadata) (f : DeclaredFunc × Nat) (entry : CodeEntry) :
    (define metadata f entry).metadata = some ⟨entry.size⟩ := by
  have slots (names : List LocalName) (f : Func) : (names.foldl nameSlot f).metadata = f.metadata := by
    induction names generalizing f with
    | nil => rfl
    | cons name names ih => exact (ih _).trans (nameSlot_metadata f name)
  unfold define applyNames
  rw [slots]
  split <;> rfl

/-- A function has the type of a type index, and the locals, the instructions and the size of an entry of the
code section. -/
def Combines (types : List Signature) (given : Nat × CodeEntry) (f : Func) : Prop :=
  ∃ s, types[given.1]? = some s ∧ Shaped s.funcType given.2.locals given.2.body f ∧
    f.metadata = some ⟨given.2.size⟩

/-- Signatures and bodies are put together by position. -/
theorem combines_of_define {types ss : List Signature} {indices : List Nat}
    (known : List.Forall₂ (fun index s => types[index]? = some s) indices ss) (metadata : ModuleMetadata)
    (j k : Nat) (code : List CodeEntry) : List.Forall₂ (Combines types) (indices.zip code)
      (List.zipWith (define metadata) ((declarations j ss).zipIdx k) code) := by
  induction known generalizing j k code with
  | nil => exact .nil
  | @cons index s indices ss first _ ih =>
    cases code with
    | nil => exact .nil
    | cons entry code =>
      have shaped := (shaped_define metadata (⟨.synthesized ("func_" ++ toString j), s, false⟩, k) entry).1
      exact .cons ⟨s, first, shaped, define_metadata metadata _ entry⟩ (ih (j + 1) (k + 1) code)

/-- The code section has all bodies. -/
theorem codeOf_ofSection (es : List Entry) : codeOf (ofSection .code es) = codeOf es := by
  induction es with
  | nil => rfl
  | cons x es ih =>
    rw [ofSection_cons]
    cases x with
    | code entry => exact congrArg (entry :: ·) ih
    | _ => exact ih

/-! ## Whole modules -/

/-- The functions that are no imports have the signatures of the function section, in order. -/
theorem ownSignatures_of_holds {es : List Entry} {d : Decoder} (holds : Holds es d) (grouped : bySection es = es) :
    ownSignatures d = signaturesOf es := by
  have declared (j k : Nat) (ss : List Signature) :
      ((declarations j ss).zipIdx k).map (·.1.signature) = ss := by
    induction ss generalizing j k with
    | nil => rfl
    | cons s ss ih => exact congrArg (s :: ·) (ih (j + 1) (k + 1))
  rw [ownSignatures, holds.functions, defined_functions grouped, declared]

/-- **The functions of a decoded module are the entries of the function section and of the code section taken
together by position.**  The code section has as many entries at least.  The i-th function has the type that
the i-th entry of the function section refers to, and the locals, the instructions and the declared size of
the i-th entry of the code section, however many functions are imported. -/
theorem bodies_of_decode {bytes : List UInt8} {p : Program} (decodes : decode .default bytes = .ok p) :
    ∃ m metadata ids indices code, p = ⟨[m.toNode]⟩ ∧ m.metadata = some metadata ∧
      Tiles bytes 8 ids metadata.sections ∧
      HasEntries bytes .function IndexAt ids metadata.sections indices ∧
      HasEntries bytes .code (BodyAt ((Encode.Fields.ofModule m).types.map (·.functype))) ids metadata.sections code ∧
      indices.length ≤ code.length ∧
      List.Forall₂ (Combines ((Encode.Fields.ofModule m).types.map (·.functype))) (indices.zip code)
        (m.fields.filterMap Node.func?) := by
  obtain ⟨d₁, d, es, begins, reads, gathered, enough, rfl⟩ := gathered_of_decode decodes
  obtain ⟨n, only, rfl⟩ := takes_header _ () d₁ rfl begins
  have later : (Reader.start bytes).Later d₁.reader := ⟨8, only.1, only.reader_eq⟩
  obtain ⟨ids, ss, recorded, last⟩ := recorded_of_sections later (Nat.lt_succ_self _) reads
  obtain ⟨xs, adds, lists⟩ := recorded.hasEntries (gathered_of_header begins).options
  -- before the first section a decoder holds nothing
  have start := only.sameEntries
  have types : d.types = typesOf es := gathered.holds.types
  have code : codeOf es = codeOf xs := by
    have grown := adds.code
    rw [start.code, gathered.holds.code] at grown
    exact grown
  have signatures : signaturesOf es = signaturesOf xs := by
    have grown := adds.signatures
    rw [ownSignatures_of_holds gathered.holds gathered.grouped, ownSignatures, start.functions] at grown
    exact grown
  have sections : d.metadata.sections = ss := by
    rw [recorded.sections, only.sameSections.1]
    rfl
  have listed : (Encode.Fields.ofModule (moduleOf d.metadata es)).types.map (·.functype) = typesOf es := by
    rw [types_moduleOf, List.map_map]
    exact List.map_id _
  obtain ⟨indices, functions, typed⟩ := (lists .function nofun nofun).exists_forall₂
    fun x _ r r' here => indexAt_of_entryAt here
  obtain ⟨entries, bodies, brought⟩ := (lists .code nofun nofun).exists_forall₂
    fun x _ r r' here => bodyAt_of_entryAt here
  have known := signatures_of_forall₂ typed
  have same := codeOf_of_forall₂ brought
  rw [signaturesOf_ofSection] at known
  rw [codeOf_ofSection] at same
  rw [signatures, code, same, ← known.length_eq] at enough
  refine ⟨moduleOf d.metadata es, d.metadata, ids, indices, entries, rfl, rfl, ?_, ?_, ?_, enough, ?_⟩
  · have tiles := recorded.tiles last
    rw [sections]
    rwa [only.pos_eq] at tiles
  · rw [sections]
    exact functions
  · rw [sections, listed, ← types]
    exact bodies
  · rw [listed, ← types, funcs_moduleOf, definitions, signatures, code, same]
    exact combines_of_define known d.metadata 0 (importedFuncs es) entries

/-- A module with an imported function and two others, the first of which has a parameter and two locals. -/
def twoBodies : List UInt8 :=
  [0x00, 0x61, 0x73, 0x6d, 0x01, 0x00, 0x00, 0x00,
    0x01, 0x08, 0x02, 0x60, 0x00, 0x00, 0x60, 0x01, 0x7f, 0x00,
    0x02, 0x07, 0x01, 0x01, 0x6d, 0x01, 0x66, 0x00, 0x00,
    0x03, 0x03, 0x02, 0x01, 0x00,
    0x0a, 0x0a, 0x02, 0x04, 0x01, 0x02, 0x7f, 0x0b, 0x03, 0x00, 0x01, 0x0b]

theorem bodies_of_decode_twoBodies : ∃ p, decode .default twoBodies = .ok p ∧
    ∃ m metadata ids indices code, p = ⟨[m.toNode]⟩ ∧ m.metadata = some metadata ∧
      Tiles twoBodies 8 ids metadata.sections ∧
      HasEntries twoBodies .function IndexAt ids metadata.sections indices ∧
      HasEntries twoBodies .code (BodyAt ((Encode.Fields.ofModule m).types.map (·.functype))) ids
        metadata.sections code ∧
      indices.length ≤ code.length ∧
      List.Forall₂ (Combines ((Encode.Fields.ofModule m).types.map (·.functype))) (indices.zip code)
        (m.fields.filterMap Node.func?) := by
  have succeeds : (decode .default twoBodies).isOk = true := by decide +kernel
  cases decodes : decode .default twoBodies with
  | ok p => exact ⟨p, rfl, bodies_of_decode decodes⟩
  | error e =>
    rw [decodes] at succeeds
    cases succeeds

/-! ## Bodies that are dropped -/

/-- A module with one function, whose code section has an entry more. -/
def surplusBody : List UInt8 :=
  [0x00, 0x61, 0x73, 0x6d, 0x01, 0x00, 0x00, 0x00,
    0x01, 0x04, 0x01, 0x60, 0x00, 0x00,
    0x03, 0x02, 0x01, 0x00,
    0x0a, 0x08, 0x02, 0x02, 0x00, 0x0b, 0x03, 0x00, 0x01, 0x0b]

/-- A decoder at an offset of that module. -/
def surplusAt (offset : Nat) : Decoder :=
  { Decoder.start .default surplusBody with reader := (Reader.start surplusBody).advance offset }

theorem surplusBody_types : IsSection surplusBody .type 1 4 ⟨"type", 8, .ofInt 4, .ofInt 1⟩ :=
  ⟨⟨1, rfl, rfl⟩, by decide, by decide, by decide, rfl, rfl⟩

theorem surplusBody_functions : IsSection surplusBody .function 1 2 ⟨"func", 14, .ofInt 2, .ofInt 1⟩ :=
  ⟨⟨3, rfl, rfl⟩, by decide, by decide, by decide, rfl, rfl⟩

theorem surplusBody_bodies : IsSection surplusBody .code 1 8 ⟨"code", 18, .ofInt 8, .ofInt 2⟩ :=
  ⟨⟨10, rfl, rfl⟩, by decide, by decide, by decide, rfl, rfl⟩

theorem surplusBody_first : BodyAt [⟨[], []⟩] ((Reader.start surplusBody).advance 21)
    ((Reader.start surplusBody).advance 24) ⟨[], [], 2⟩ :=
  ⟨surplusAt 22, surplusAt 23, surplusAt 24, [], by rfl, List.nil_prefix, by rfl, by rfl, by rfl, by rfl, by rfl⟩

theorem surplusBody_second : BodyAt [⟨[], []⟩] ((Reader.start surplusBody).advance 24)
    ((Reader.start surplusBody).advance 28) ⟨[.instr "nop" none [] none], [], 3⟩ :=
  ⟨surplusAt 25, surplusAt 26, surplusAt 28, [], by rfl, List.nil_prefix, by rfl, by rfl, by rfl, by rfl, by rfl⟩

/-- The entries of the code section may outnumber those of the function section. -/
theorem not_equinumerous_of_decode : ¬∀ (bytes : List UInt8) (p : Program), decode .default bytes = .ok p →
    ∀ ids ss types indices code, Tiles bytes 8 ids ss → HasEntries bytes .function IndexAt ids ss indices →
      HasEntries bytes .code (BodyAt types) ids ss code → code.length = indices.length := by
  intro equinumerous
  have succeeds : (decode .default surplusBody).isOk = true := by decide +kernel
  cases decodes : decode .default surplusBody with
  | error e =>
    rw [decodes] at succeeds
    cases succeeds
  | ok p =>
    have tiles : Tiles surplusBody 8 [.type, .function, .code] _ :=
      .more surplusBody_types (.more surplusBody_functions (.more surplusBody_bodies .done))
    have index : IndexAt ((Reader.start surplusBody).advance 17) ((Reader.start surplusBody).advance 18) 0 := by rfl
    have functions : Filled surplusBody IndexAt 16 18 [0] := ⟨_, by rfl, .cons index (.nil _)⟩
    have bodies : Filled surplusBody (BodyAt [⟨[], []⟩]) 20 28 [_, _] :=
      ⟨_, by rfl, .cons surplusBody_first (.cons surplusBody_second (.nil _))⟩
    have same := equinumerous surplusBody p decodes _ _ [⟨[], []⟩] [0] _ tiles
      (.later nofun (.here surplusBody_functions functions (by decide)))
      (.later nofun (.later nofun (.here surplusBody_bodies bodies nofun)))
    cases same

end WasmEngine.Binary
