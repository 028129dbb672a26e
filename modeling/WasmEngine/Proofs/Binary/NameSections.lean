import WasmEngine.Proofs.Binary.BodyPairing
import WasmEngine.Proofs.Binary.PassedSections

/-!
# Name sections

The names of functions and locals stand in custom sections that are titled "name", of which a module may have any
number at any place (`HasNames`).  A decoder gathers the entries of all of them in their order, and no other section
brings in names (`Recorded.names`).
-/

namespace WasmEngine.Binary

open Outcome Decode

variable {bytes : List UInt8}

/-! ## Names as bytes -/

/-- A count and as many items. -/
def Counted {α : Type} (R : Reader → Reader → α → Prop) (r r' : Reader) (as : List α) : Prop :=
  ∃ s, Read.u32 r = .ok as.length s ∧ Row R s r' as

/-- The index of a function and its name. -/
def FunctionNameAt (r r' : Reader) (name : FunctionName) : Prop :=
  ∃ s, Read.u32 r = .ok name.index s ∧ Read.name s = .ok name.value r'

/-- The index of a local of some function and its name. -/
def LocalNameAt (function : Nat) (r r' : Reader) (name : LocalName) : Prop :=
  name.functionIndex = function ∧ ∃ s, Read.u32 r = .ok name.localIndex s ∧ Read.name s = .ok name.value r'

/-- The index of a function and the names of its locals. -/
def LocalNamesAt (r r' : Reader) (names : List LocalName) : Prop :=
  ∃ function s, Read.u32 r = .ok function s ∧ Counted (LocalNameAt function) s r' names

/-- What a part of a name section is about. -/
inductive NamePart where
  | module (name : String)
  | functions (names : List FunctionName)
  | locals (names : List (List LocalName))
  | other

namespace NamePart

/-- The names of functions in a part. -/
def functionNames : NamePart → List FunctionName
  | functions names => names
  | _ => []

/-- The names of locals in a part. -/
def localNames : NamePart → List LocalName
  | locals names => names.flatten
  | _ => []

/-- The contents of a part of a number. -/
inductive Contents : UInt8 → Reader → Reader → NamePart → Prop
  | module {r r' : Reader} {name : String} (reads : Read.name r = .ok name r') : Contents 0 r r' (.module name)
  | functions {r r' : Reader} {names : List FunctionName} (counted : Counted FunctionNameAt r r' names) :
    Contents 1 r r' (.functions names)
  | locals {r r' : Reader} {names : List (List LocalName)} (counted : Counted LocalNamesAt r r' names) :
    Contents 2 r r' (.locals names)
  | other {id : UInt8} {r : Reader} {n : Nat} (unknown : id ≠ 0 ∧ id ≠ 1 ∧ id ≠ 2)
    (within : n ≤ r.remaining) : Contents id r (r.advance n) .other

end NamePart

/-- A part of a name section: its number, its size and its contents. -/
def NamePartAt (r r' : Reader) (part : NamePart) : Prop :=
  ∃ id size s t, Read.byte r = .ok id s ∧ Read.u32 s = .ok size t ∧ part.Contents id t r' ∧ r'.pos = t.pos + size

/-- The parts of all name sections of a module, in their order. -/
inductive HasNames (bytes : List UInt8) : List SectionId → List SectionMetadata → List NamePart → Prop
  | done : HasNames bytes [] [] []
  | names {width size : Nat} {r : Reader} {s : SectionMetadata} {ids : List SectionId} {ss : List SectionMetadata}
    {parts others : List NamePart} (isSection : IsSection bytes .custom width size s)
    (title : Read.name ((Reader.start bytes).advance (s.startOffset + 1 + width)) = .ok "name" r)
    (row : Row NamePartAt r ((Reader.start bytes).advance (s.startOffset + 1 + width + size)) parts)
    (rest : HasNames bytes ids ss others) : HasNames bytes (.custom :: ids) (s :: ss) (parts ++ others)
  | other {id : SectionId} {width size : Nat} {s : SectionMetadata} {ids : List SectionId}
    {ss : List SectionMetadata} {parts : List NamePart} (isSection : IsSection bytes id width size s)
    (untitled : id = .custom →
      ∀ r, Read.name ((Reader.start bytes).advance (s.startOffset + 1 + width)) ≠ .ok "name" r)
    (rest : HasNames bytes ids ss parts) : HasNames bytes (id :: ids) (s :: ss) parts

/-! ## Reading a part -/

/-- A decoder after it read some parts of name sections. -/
structure Brings (parts : List NamePart) (d d' : Decoder) : Prop where
  functions : d'.metadata.functionNames = d.metadata.functionNames ++ parts.flatMap NamePart.functionNames
  locals : d'.metadata.localNames = d.metadata.localNames ++ parts.flatMap NamePart.localNames

section Reading

variable {d e d' : Decoder}

/-- A step that knows the same names brings none. -/
theorem Brings.of_sameNames (same : SameNames d d') : Brings [] d d' :=
  ⟨same.functions.trans (List.append_nil _).symm, same.locals.trans (List.append_nil _).symm⟩

/-- The parts of a name section after others. -/
theorem Brings.trans {parts others : List NamePart} (first : Brings parts d e) (rest : Brings others e d') :
    Brings (parts ++ others) d d' where
  functions := by rw [rest.functions, first.functions, List.flatMap_append, List.append_assoc]
  locals := by rw [rest.locals, first.locals, List.flatMap_append, List.append_assoc]

/-- A part without names of functions and locals. -/
theorem Brings.of_silent {part : NamePart} (silent : part.functionNames = [] ∧ part.localNames = [])
    (same : SameNames d d') : Brings [part] d d' where
  functions := by rw [List.flatMap_singleton, silent.1, same.functions, List.append_nil]
  locals := by rw [List.flatMap_singleton, silent.2, same.locals, List.append_nil]

/-- Items that a step reads one by one. -/
theorem row_of_times {α : Type} {R : Reader → Reader → α → Prop} {step : DecodeM α}
    (each : ∀ d a d', step d = .ok a d' → R d.reader d'.reader a) {n : Nat} {as : List α}
    (ends : times step n d = .ok as d') : as.length = n ∧ Row R d.reader d'.reader as := by
  induction n generalizing d as with
  | zero =>
    cases ends
    exact ⟨rfl, .nil _⟩
  | succ n ih =>
    obtain ⟨a, e, now, ends⟩ := run_bind_eq_ok_iff.1 ends
    obtain ⟨rest, t, others, last⟩ := run_bind_eq_ok_iff.1 ends
    obtain ⟨rfl, rfl⟩ := run_pure_eq_ok_iff.1 last
    obtain ⟨length, row⟩ := ih others
    exact ⟨congrArg (· + 1) length, .cons (each d a e now) row⟩

/-- Items that a step reads and puts into the metadata one by one. -/
theorem row_of_forEach {α : Type} {R : Reader → Reader → α → Prop} {step : Nat → DecodeM Unit}
    (Puts : List α → Decoder → Decoder → Prop) (none_ : ∀ d, Puts [] d d)
    (some_ : ∀ {a as d e d'}, Puts [a] d e → Puts as e d' → Puts (a :: as) d d')
    (each : ∀ i d d', step i d = .ok () d' → ∃ a, R d.reader d'.reader a ∧ Puts [a] d d') {i n : Nat}
    (ends : forEach step i n d = .ok () d') :
    ∃ as, as.length = n ∧ Row R d.reader d'.reader as ∧ Puts as d d' := by
  induction n generalizing i d with
  | zero =>
    cases ends
    exact ⟨[], rfl, .nil _, none_ _⟩
  | succ n ih =>
    obtain ⟨⟨⟩, e, now, rest⟩ := run_bind_eq_ok_iff.1 ends
    obtain ⟨a, here, first⟩ := each _ _ _ now
    obtain ⟨as, length, row, others⟩ := ih rest
    exact ⟨a :: as, congrArg (· + 1) length, .cons here row, some_ first others⟩

/-- Reading alone brings no names. -/
theorem sameNames_of_reading {α : Type} {m : DecodeM α} (reading : Reading m) {a : α} (ends : m d = .ok a d') :
    SameNames d d' := by
  obtain ⟨_, only⟩ := reading d a d' ends
  exact only.sameNames

/-- What a step reads stands between the places of the decoder. -/
theorem read_of_step {α : Type} {r : Read α} {a : α} (ends : read r d = .ok a e) : r d.reader = .ok a e.reader := by
  obtain ⟨s, given, rfl⟩ := read_eq_ok_iff.1 ends
  exact given

theorem reading_functionName : Reading functionName :=
  reading_u32.bind fun _ => (reading_read Read.gives_name).bind fun _ => reading_pure _

/-- A function name is a number and a text. -/
theorem functionNameAt_of_functionName {name : FunctionName} (ends : functionName d = .ok name d') :
    FunctionNameAt d.reader d'.reader name := by
  obtain ⟨index, e, reads, ends⟩ := run_bind_eq_ok_iff.1 ends
  obtain ⟨value, t, named, last⟩ := run_bind_eq_ok_iff.1 ends
  obtain ⟨rfl, rfl⟩ := run_pure_eq_ok_iff.1 last
  exact ⟨e.reader, read_of_step reads, read_of_step named⟩

/-- The names of locals are those of a function. -/
theorem localNamesAt_of_localNames {names : List LocalName} (ends : localNames d = .ok names d') :
    LocalNamesAt d.reader d'.reader names := by
  obtain ⟨function, e, reads, ends⟩ := run_bind_eq_ok_iff.1 ends
  obtain ⟨count, t, counts, ends⟩ := run_bind_eq_ok_iff.1 ends
  have each (d : Decoder) (name : LocalName) (d' : Decoder) (ends : (do
        let localIndex ← read .u32
        let value ← read .name
        return ⟨value, localIndex, function⟩ : DecodeM LocalName) d = .ok name d') :
      LocalNameAt function d.reader d'.reader name := by
    obtain ⟨index, e, reads, ends⟩ := run_bind_eq_ok_iff.1 ends
    obtain ⟨value, t, named, last⟩ := run_bind_eq_ok_iff.1 ends
    obtain ⟨rfl, rfl⟩ := run_pure_eq_ok_iff.1 last
    exact ⟨rfl, e.reader, read_of_step reads, read_of_step named⟩
  obtain ⟨rfl, row⟩ := row_of_times each ends
  exact ⟨function, e.reader, read_of_step reads, t.reader, read_of_step counts, row⟩

/-- A name of a function goes to the metadata. -/
theorem brings_functionName (ends : (do
      let name ← functionName
      modifyMetadata fun m => { m with functionNames := m.functionNames ++ [name] } : DecodeM Unit) d = .ok () d') :
    ∃ name, FunctionNameAt d.reader d'.reader name ∧ Brings [.functions [name]] d d' := by
  obtain ⟨name, e, reads, changes⟩ := run_bind_eq_ok_iff.1 ends
  have same := sameNames_of_reading reading_functionName reads
  have here := functionNameAt_of_functionName reads
  cases changes
  exact ⟨name, here, congrArg (· ++ [name]) same.functions, same.locals.trans (List.append_nil _).symm⟩

/-- The names of the locals of a function go to the metadata. -/
theorem brings_localNames (ends : (do
      let names ← localNames
      modifyMetadata fun m => { m with localNames := m.localNames ++ names } : DecodeM Unit) d = .ok () d') :
    ∃ names, LocalNamesAt d.reader d'.reader names ∧ Brings [.locals [names]] d d' := by
  obtain ⟨names, e, reads, changes⟩ := run_bind_eq_ok_iff.1 ends
  have same := sameNames_of_reading reading_localNames reads
  have here := localNamesAt_of_localNames reads
  have all : [NamePart.locals [names]].flatMap NamePart.localNames = names := by
    simp only [List.flatMap_singleton, NamePart.localNames, List.flatten_cons, List.flatten_nil, List.append_nil]
  cases changes
  refine ⟨names, here, same.functions.trans (List.append_nil _).symm, ?_⟩
  rw [all, ← same.locals]

/-- A part of a name section is read as it stands. -/
theorem part_of_nameSubsection (ends : nameSubsection d = .ok () d') :
    ∃ part, NamePartAt d.reader d'.reader part ∧ Brings [part] d d' := by
  obtain ⟨id, e, byte, rest⟩ := run_bind_eq_ok_iff.1 ends
  obtain ⟨size, t, sized, inside⟩ := run_bind_eq_ok_iff.1 rest
  clear ends rest
  have before := (sameNames_of_reading reading_byte byte).trans (sameNames_of_reading reading_u32 sized)
  -- it remains to read the contents, which have to end where the part does
  suffices contents : ∃ part u, part.Contents id t.reader u.reader ∧ Brings [part] t u ∧
      expectPosition (t.reader.pos + size) "name subsection" u = .ok () d' by
    obtain ⟨part, u, contents, brings, last⟩ := contents
    obtain ⟨stops, rfl⟩ := expectPosition_eq_ok_iff.1 last
    exact ⟨part, ⟨id, size, e.reader, t.reader, read_of_step byte, read_of_step sized, contents, stops⟩,
      (Brings.of_sameNames before).trans brings⟩
  rw [bind_ok (pos_eq t)] at inside
  dsimp only at inside
  split_ifs at inside with isModule isFunctions isLocals
  · subst isModule
    obtain ⟨name, u, reads, rest⟩ := run_bind_eq_ok_iff.1 inside
    obtain ⟨⟨⟩, v, changes, last⟩ := run_bind_eq_ok_iff.1 rest
    have same := sameNames_of_reading (reading_read Read.gives_name) reads
    have kept : SameNames u v ∧ v.reader = u.reader := by
      cases changes
      exact ⟨⟨rfl, rfl⟩, rfl⟩
    refine ⟨.module name, v, ?_, .of_silent ⟨rfl, rfl⟩ (same.trans kept.1), last⟩
    rw [kept.2]
    exact .module (read_of_step reads)
  · subst isFunctions
    obtain ⟨count, u, reads, rest⟩ := run_bind_eq_ok_iff.1 inside
    obtain ⟨⟨⟩, v, entries, last⟩ := run_bind_eq_ok_iff.1 rest
    have same := sameNames_of_reading reading_u32 reads
    obtain ⟨names, rfl, row, brings⟩ := row_of_forEach (fun names => Brings [.functions names])
      (fun d => .of_silent ⟨rfl, rfl⟩ ⟨rfl, rfl⟩)
      (fun first rest => ⟨(first.trans rest).functions, (first.trans rest).locals⟩)
      (fun _ _ _ => brings_functionName) entries
    exact ⟨.functions names, v, .functions ⟨u.reader, read_of_step reads, row⟩,
      (Brings.of_sameNames same).trans brings, last⟩
  · subst isLocals
    obtain ⟨count, u, reads, rest⟩ := run_bind_eq_ok_iff.1 inside
    obtain ⟨⟨⟩, v, entries, last⟩ := run_bind_eq_ok_iff.1 rest
    have same := sameNames_of_reading reading_u32 reads
    obtain ⟨names, rfl, row, brings⟩ := row_of_forEach (fun names => Brings [.locals names])
      (fun d => .of_silent ⟨rfl, rfl⟩ ⟨rfl, rfl⟩)
      (fun {_ _ _ _ _} first rest => ⟨(first.trans rest).functions, by
        simpa [NamePart.localNames] using (first.trans rest).locals⟩)
      (fun _ _ _ => brings_localNames) entries
    exact ⟨.locals names, v, .locals ⟨u.reader, read_of_step reads, row⟩,
      (Brings.of_sameNames same).trans brings, last⟩
  · obtain ⟨⟨⟩, u, skips, last⟩ := run_bind_eq_ok_iff.1 inside
    obtain ⟨n, only⟩ := reading_skipTo _ t () u skips
    refine ⟨.other, u, ?_, .of_silent ⟨rfl, rfl⟩ only.sameNames, last⟩
    rw [only.reader_eq]
    exact .other ⟨isModule, isFunctions, isLocals⟩ only.1

/-- The parts of a name section stand one after the other, and each brings what it says. -/
theorem row_of_nameSubsections {stop fuel : Nat} (ends : nameSubsections stop fuel d = .ok () d') :
    ∃ parts, Row NamePartAt d.reader d'.reader parts ∧ Brings parts d d' := by
  induction fuel generalizing d with
  | zero =>
    cases ends
    exact ⟨[], .nil _, .of_sameNames ⟨rfl, rfl⟩⟩
  | succ fuel ih =>
    rw [nameSubsections, bind_ok (pos_eq d)] at ends
    split_ifs at ends
    · obtain ⟨⟨⟩, e, now, rest⟩ := run_bind_eq_ok_iff.1 ends
      obtain ⟨part, here, first⟩ := part_of_nameSubsection now
      obtain ⟨parts, row, others⟩ := ih rest
      exact ⟨part :: parts, .cons here row, first.trans others⟩
    · cases ends
      exact ⟨[], .nil _, .of_sameNames ⟨rfl, rfl⟩⟩

/-! ## Reading a section -/

/-- A custom section brings in the parts that fill it if it is titled as a name section, and no names otherwise. -/
theorem brings_of_customSection {stop : Nat} (options : d.options = .default)
    (ends : customSection stop d = .ok () d') :
    (∃ r parts, Read.name d.reader = .ok "name" r ∧ Row NamePartAt r d'.reader parts ∧ Brings parts d d') ∨
      (∀ r, Read.name d.reader ≠ .ok "name" r) ∧ Brings [] d d' := by
  rw [customSection_eq] at ends
  obtain ⟨name, e, reads, rest⟩ := run_bind_eq_ok_iff.1 ends
  obtain ⟨_, only⟩ := reading_read Read.gives_name d name e reads
  have title := read_of_step reads
  have listed : e.options = .default := only.sameEntries.options.trans options
  rw [customContents, listed] at rest
  split_ifs at rest with isNames
  · obtain rfl : name = "name" := by
      rw [Bool.and_eq_true, beq_iff_eq] at isNames
      exact isNames.1
    obtain ⟨parts, row, brings⟩ := row_of_nameSubsections rest
    exact .inl ⟨e.reader, parts, title, row, (Brings.of_sameNames only.sameNames).trans brings⟩
  · refine .inr ⟨fun r titled => isNames ?_, ?_⟩
    · cases title.symm.trans titled
      rfl
    · obtain ⟨_, only'⟩ := (reading_note _).bind (fun _ => reading_skipTo stop) e () d' rest
      exact .of_sameNames (only.sameNames.trans only'.sameNames)

/-- No entry of another section brings names. -/
theorem sameNames_of_step {id : SectionId} {i : Nat} (ends : entryStep id i d = .ok () d') : SameNames d d' := by
  obtain ⟨x, e, reads, -, rfl⟩ := entryStep_eq_ok_iff.1 ends
  have same := sameNames_of_reading (reading_entry id i) reads
  exact ⟨same.functions, same.locals⟩

theorem sameNames_of_forEach {id : SectionId} {i k : Nat} (ends : forEach (entryStep id) i k d = .ok () d') :
    SameNames d d' := by
  induction k generalizing i d with
  | zero =>
    cases ends
    exact ⟨rfl, rfl⟩
  | succ k ih =>
    obtain ⟨⟨⟩, e, now, rest⟩ := run_bind_eq_ok_iff.1 ends
    exact (sameNames_of_step now).trans (ih rest)

/-- Only custom sections bring in names. -/
theorem sameNames_of_sectionBody {id : SectionId} {stop result : Nat} (options : d.options = .default)
    (some_ : id ≠ .custom) (ends : sectionBody id stop d = .ok result d') : SameNames d d' := by
  by_cases isStart : id = .start
  · subst isStart
    exact sameNames_of_step (step_of_startBody ends)
  · obtain ⟨count, e, t, reads, only', entries⟩ := entries_of_sectionBody some_ isStart options ends
    obtain ⟨_, only⟩ := reading_u32 d count e reads
    exact (only.trans only').sameNames.trans (sameNames_of_forEach entries)

/-- The names that are gathered are those that stand in the name sections. -/
theorem Decode.Recorded.names {ids : List SectionId} {ss : List SectionMetadata} (options : d.options = .default)
    (recorded : Recorded bytes d ids ss d') : ∃ parts, HasNames bytes ids ss parts ∧ Brings parts d d' := by
  induction recorded with
  | done => exact ⟨[], .done, .of_sameNames ⟨rfl, rfl⟩⟩
  | @more d e d' id s ids ss first rest ih =>
    obtain ⟨_, _, _, _, adds, -⟩ := adds_of_section options first
    obtain ⟨others, lists, later⟩ := ih (adds.options.trans options)
    obtain ⟨width, size, isSection, -, u, u', count, before, named, begins, ends, stops, -, after⟩ := first.place
    have listed : u.options = .default := before.options.trans options
    by_cases isCustom : id = .custom
    · subst isCustom
      obtain ⟨_, v, custom, last⟩ := run_bind_eq_ok_iff.1 ends
      obtain ⟨-, rfl⟩ := run_pure_eq_ok_iff.1 last
      obtain ⟨r, parts, title, row, brings⟩ | ⟨untitled, brings⟩ := brings_of_customSection listed custom
      · rw [begins] at title
        rw [stops] at row
        have whole := (Brings.of_sameNames named).trans (brings.trans (.of_sameNames after))
        rw [List.nil_append, List.append_nil] at whole
        exact ⟨parts ++ others, .names isSection title row lists, whole.trans later⟩
      · rw [begins] at untitled
        have whole := (Brings.of_sameNames named).trans (brings.trans (.of_sameNames after))
        exact ⟨others, .other isSection (fun _ => untitled) lists, whole.trans later⟩
    · have same := named.trans ((sameNames_of_sectionBody listed isCustom ends).trans after)
      exact ⟨others, .other isSection (fun is => absurd is isCustom) lists, (Brings.of_sameNames same).trans later⟩

end Reading

end WasmEngine.Binary
