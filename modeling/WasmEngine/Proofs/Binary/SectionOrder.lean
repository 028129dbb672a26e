import WasmEngine.Proofs.Binary.SectionTiling
import WasmEngine.Proofs.Binary.TypeTables
import WasmEngine.Proofs.Typing.ImportOrder

/-!
# The order of a binary

A binary lists the imports of a module, the types of its functions, its tables, memories and globals, and the
bodies of its functions, each in the order of the fields.  Its indices count the imports of a kind first, and
then the entries of the section of that kind: whoever goes over its sections from the header on, and in each over as
many entries as its count says, comes to the definitions of the module in the order of their numbers
(`numbers_of_encode`).
-/

namespace WasmEngine.Binary

open Encode Node Outcome

/-! ## Type sections -/

namespace Encode

variable {α β : Type}

/-- The result of two steps of the encoder, and the type section after them. -/
theorem bind_eq_ok_iff {x : EncodeM α} {f : α → EncodeM β} {t u : TypeTable} {b : β} :
    (x >>= f) t = .ok (b, u) ↔ ∃ a t', x t = .ok (a, t') ∧ f a t' = .ok (b, u) := by
  simp only [bind, StateT.bind, Except.bind]
  cases x t with
  | ok r =>
    obtain ⟨a, t'⟩ := r
    simp
  | error e => simp

theorem pure_eq_ok_iff {a b : α} {t u : TypeTable} :
    (pure a : EncodeM α) t = .ok (b, u) ↔ a = b ∧ t = u := by
  show (Except.ok (a, t) : Except EncodeError _) = .ok (b, u) ↔ _
  simp

theorem lift_eq_ok_iff {r : Except EncodeError α} {a : α} {t u : TypeTable} :
    (liftM r : EncodeM α) t = .ok (a, u) ↔ r = .ok a ∧ t = u := by
  cases r with
  | ok b => exact pure_eq_ok_iff.trans (by rw [Except.ok.injEq])
  | error e => exact ⟨nofun, nofun⟩

/-- A step that succeeds keeps the entries that the type section has. -/
def Keeping (x : EncodeM α) : Prop := ∀ t a u, x t = .ok (a, u) → t.entries <+: u.entries

variable {x : EncodeM α} {f : α → EncodeM β}

theorem keeping_pure (a : α) : Keeping (pure a : EncodeM α) := fun _ _ _ done => by
  obtain ⟨-, rfl⟩ := pure_eq_ok_iff.1 done
  exact List.prefix_refl _

theorem keeping_lift (r : Except EncodeError α) : Keeping (liftM r : EncodeM α) := fun _ _ _ done => by
  obtain ⟨-, rfl⟩ := lift_eq_ok_iff.1 done
  exact List.prefix_refl _

/-- Two steps in a row keep the types that there are. -/
theorem Keeping.bind (first : Keeping x) (rest : ∀ a, Keeping (f a)) : Keeping (x >>= f) := fun _ _ _ done => by
  obtain ⟨a, t', here, there⟩ := bind_eq_ok_iff.1 done
  exact (first _ _ _ here).trans (rest a _ _ _ there)

theorem keeping_typeIndex (sig : SignatureRef) : Keeping (typeIndex sig) := by
  intro t i u done
  cases sig with
  | inline s =>
    simp only [typeIndex] at done
    split at done
    · cases done
      exact List.prefix_refl _
    · cases done
      exact List.prefix_append ..
  | ref reference =>
    simp only [typeIndex] at done
    split at done
    · cases done
    · split_ifs at done
      cases done
      exact List.prefix_refl _

mutual

theorem keeping_instruction : ∀ node : Node, Keeping (instruction node)
  | .instr id object args memArg => by
    rw [instruction]
    exact keeping_lift _
  | .block _ body _ => by
    rw [instruction]
    exact (keeping_instructions body).bind fun _ => keeping_pure _
  | .loop _ _ body => by
    rw [instruction]
    exact (keeping_instructions body).bind fun _ => keeping_pure _
  | .ifElse _ _ consequent alternate => by
    rw [instruction]
    exact (keeping_instructions consequent).bind fun _ =>
      (keeping_instructions alternate).bind fun _ => keeping_pure _
  | .call i => by
    rw [instruction]
    exact (keeping_lift _).bind fun _ => keeping_pure _
  | .callIndirect sig => by
    rw [instruction]
    exact (keeping_typeIndex sig).bind fun _ => keeping_pure _
  | .program _ | .module .. | .moduleMetadata _ | .moduleName _ | .functionName _ | .localName _
  | .sectionMetadata _ | .typeDef _ | .func .. | .signature _ | .number _ | .longNumber _ | .float _
  | .valtype _ | .identifier _ | .globalType _ | .global .. | .table _ | .memory _ | .limits _
  | .funcImport _ | .moduleImport _ | .exportDescr _ | .moduleExport _ | .start _ | .elem ..
  | .data .. | .bytes _ => by
    intro _ _ _ done
    simp only [instruction] at done
    cases done

theorem keeping_instructions : ∀ nodes : List Node, Keeping (instructions nodes)
  | [] => by
    rw [instructions]
    exact keeping_pure _
  | node :: nodes => by
    rw [instructions]
    exact (keeping_instruction node).bind fun _ => (keeping_instructions nodes).bind fun _ =>
      keeping_pure _

end

theorem keeping_body (g : Func) : Keeping (body g) :=
  ((keeping_instructions g.body).bind fun _ => keeping_pure _).bind fun _ => keeping_pure _

theorem keeping_globalEntry (g : GlobalType × List Node) : Keeping (globalEntry g) :=
  ((keeping_instructions g.2).bind fun _ => keeping_pure _).bind fun _ => keeping_pure _

theorem keeping_importType (i : ModuleImport) : Keeping (importType i) := by
  unfold importType
  split
  · exact keeping_typeIndex _
  · exact keeping_pure _

/-- What is written for the items of a list is written for each in its place. -/
theorem forall₂_of_mapM {g : α → EncodeM β} (keeps : ∀ a, Keeping (g a)) {as : List α} {bs : List β}
    {t u : TypeTable} (done : as.mapM g t = .ok (bs, u)) : t.entries <+: u.entries ∧
      List.Forall₂ (fun a b => ∃ t' u', g a t' = .ok (b, u') ∧ u'.entries <+: u.entries) as bs := by
  induction as generalizing bs t with
  | nil =>
    obtain ⟨rfl, rfl⟩ := pure_eq_ok_iff.1 done
    exact ⟨List.prefix_refl _, .nil⟩
  | cons a as ih =>
    rw [List.mapM_cons] at done
    obtain ⟨b, t', first, done⟩ := bind_eq_ok_iff.1 done
    obtain ⟨bs, u', others, done⟩ := bind_eq_ok_iff.1 done
    obtain ⟨rfl, rfl⟩ := pure_eq_ok_iff.1 done
    obtain ⟨grown, each⟩ := ih others
    exact ⟨(keeps a _ _ _ first).trans grown, .cons ⟨t, t', first, grown⟩ each⟩

/-- The index of a signature in place is one of its type. -/
theorem getElem?_of_typeIndex {s : Signature} {t u : TypeTable} {i : Nat}
    (done : typeIndex (.inline s) t = .ok (i, u)) {types : List FuncType} (grown : u.entries <+: types) :
    types[i]? = some s.funcType := by
  obtain ⟨more, rfl⟩ := grown
  simp only [typeIndex] at done
  split at done
  · next position found =>
    cases done
    obtain ⟨lt, same, -⟩ := List.findIdx?_eq_some_iff_getElem.1 found
    rw [List.getElem?_append_left lt, List.getElem?_eq_getElem lt, LawfulBEq.eq_of_beq same]
  · cases done
    simp

end Encode

/-! ## Sections -/

/-- An index of a type section is one of the type of a signature. -/
def IndexesType (types : List FuncType) (sig : SignatureRef) (i : Nat) : Prop :=
  ∀ s, sig = .inline s → types[i]? = some s.funcType

/-- A binary lists the fields of a module in order: its imports, the types of its functions, its tables, memories
and globals, and the bodies of its functions. -/
def Lists (f : Fields) (bytes : List UInt8) : Prop :=
  ∃ (types : List FuncType) (importTypes funcTypes : List Nat)
    (globals exports elements bodies data : List (List UInt8)) (start : Option (List UInt8)),
    bytes = Write.preamble
      ++ vectorSection .type (types.map funcType)
      ++ vectorSection .imports (f.imports.zipWith importEntry importTypes)
      ++ vectorSection .function (funcTypes.map u32)
      ++ vectorSection .table (f.tables.map tableType)
      ++ vectorSection .memory (f.memories.map fun m => limits m.limits)
      ++ vectorSection .global globals
      ++ vectorSection .exports exports
      ++ start.elim [] (Write.sectionOf SectionId.start.toByte)
      ++ vectorSection .element elements
      ++ vectorSection .code (bodies.map Write.byteVector)
      ++ vectorSection .data data
      ++ nameSection f.importedFuncs f.funcs ∧
    List.Forall₂ (fun i t => ∀ d, i.descr = .func d → IndexesType types d.signature t) f.imports importTypes ∧
    List.Forall₂ (fun g t => IndexesType types g.signature t) f.funcs funcTypes ∧
    List.Forall₂ (fun g b => ∃ t u, globalEntry g t = .ok (b, u)) f.globals globals ∧
    List.Forall₂ (fun g b => ∃ t u, body g t = .ok (b, u)) f.funcs bodies

/-- A start section, if there is one. -/
theorem exists_of_startSection {starts : List Index} {bytes : List UInt8}
    (done : startSection starts = .ok bytes) :
    ∃ start : Option (List UInt8), bytes = start.elim [] (Write.sectionOf SectionId.start.toByte) := by
  unfold startSection at done
  split at done
  · obtain ⟨i, -, done⟩ := Outcome.bind_eq_ok_iff.1 done
    cases done
    exact ⟨some (u32 i), rfl⟩
  · cases done
    exact ⟨none, rfl⟩

/-- Whatever is encoded has its sections in this order. -/
theorem lists_of_encode {m : Module} {bytes : List UInt8} (encoded : encode m = .ok bytes) :
    Lists (.ofModule m) bytes := by
  obtain ⟨⟨_, u⟩, written, rfl⟩ := (Outcome.bind_eq_ok_iff.trans
    (exists_congr fun _ => and_congr_right fun _ => Outcome.pure_eq_ok_iff)).1 encoded
  unfold Encode.module at written
  obtain ⟨importTypes, t₁, imports, written⟩ := Encode.bind_eq_ok_iff.1 written
  obtain ⟨funcTypes, t₂, signatures, written⟩ := Encode.bind_eq_ok_iff.1 written
  obtain ⟨bodies, t₃, code, written⟩ := Encode.bind_eq_ok_iff.1 written
  obtain ⟨_, _, last, written⟩ := Encode.bind_eq_ok_iff.1 written
  cases last
  obtain ⟨globals, t₄, inits, written⟩ := Encode.bind_eq_ok_iff.1 written
  obtain ⟨exports, t₅, -, written⟩ := Encode.bind_eq_ok_iff.1 written
  obtain ⟨_, t₆, started, written⟩ := Encode.bind_eq_ok_iff.1 written
  obtain ⟨inline, t₇, -, written⟩ := Encode.bind_eq_ok_iff.1 written
  obtain ⟨elems, t₈, -, written⟩ := Encode.bind_eq_ok_iff.1 written
  obtain ⟨data, t₉, -, written⟩ := Encode.bind_eq_ok_iff.1 written
  obtain ⟨start, rfl⟩ := exists_of_startSection (Encode.lift_eq_ok_iff.1 started).1
  obtain ⟨rfl, -⟩ := Encode.pure_eq_ok_iff.1 written
  obtain ⟨-, imported⟩ := Encode.forall₂_of_mapM keeping_importType imports
  obtain ⟨grown, declared⟩ := Encode.forall₂_of_mapM (fun _ => keeping_typeIndex _) signatures
  obtain ⟨grown', defined⟩ := Encode.forall₂_of_mapM keeping_body code
  obtain ⟨-, initialised⟩ := Encode.forall₂_of_mapM keeping_globalEntry inits
  refine ⟨t₃.entries, importTypes, funcTypes, globals, exports, inline.filterMap id ++ elems, bodies, data,
    start, rfl, imported.imp ?_, declared.imp ?_, initialised.imp ?_, defined.imp ?_⟩
  · rintro i n ⟨t, t', done, before⟩ d descr s inline
    simp only [importType, descr] at done
    rw [inline] at done
    exact getElem?_of_typeIndex done (before.trans (grown.trans grown'))
  · rintro g n ⟨t, t', done, before⟩ s inline
    rw [inline] at done
    exact getElem?_of_typeIndex done (before.trans grown')
  · rintro g b ⟨t, t', done, -⟩
    exact ⟨t, t', done⟩
  · rintro g b ⟨t, t', done, -⟩
    exact ⟨t, t', done⟩

/-! ## Sections in their places -/

/-- The contents of a section of entries, if it has any. -/
def filled (entries : List (List UInt8)) : Option (List UInt8) :=
  if entries.isEmpty then none else some (u32 entries.length ++ entries.flatten)

/-- The sections that have contents. -/
def present (ids : List SectionId) (contents : SectionId → Option (List UInt8)) : List (SectionId × List UInt8) :=
  ids.filterMap fun id => (contents id).map fun content => (id, content)

/-- Sections one after the other. -/
def sections (parts : List (SectionId × List UInt8)) : List UInt8 :=
  parts.flatMap fun part => Write.sectionOf part.1.toByte part.2

/-- Where sections are that stand one after the other from an offset on. -/
def places : Nat → List (SectionId × List UInt8) → List SectionMetadata
  | _, [] => []
  | offset, part :: parts =>
    ⟨part.1.name, offset, .ofInt part.2.length, .ofInt 0⟩ ::
      places (offset + (Write.sectionOf part.1.toByte part.2).length) parts

/-- A section of entries is its contents behind its number and its size. -/
theorem vectorSection_eq_elim (id : SectionId) (entries : List (List UInt8)) :
    vectorSection id entries = (filled entries).elim [] (Write.sectionOf id.toByte) := by
  rw [vectorSection, filled]
  cases entries.isEmpty <;> rfl

theorem present_cons (id : SectionId) (ids : List SectionId) (contents : SectionId → Option (List UInt8)) :
    present (id :: ids) contents = ((contents id).map fun content => (id, content)).toList ++ present ids contents := by
  rw [present, List.filterMap_cons]
  cases contents id <;> rfl

/-- The sections that have contents are all that is written of a list of sections. -/
theorem sections_present (ids : List SectionId) (contents : SectionId → Option (List UInt8)) :
    sections (present ids contents) =
      ids.flatMap fun id => (contents id).elim [] (Write.sectionOf id.toByte) := by
  induction ids with
  | nil => rfl
  | cons id ids ih =>
    rw [present_cons, List.flatMap_cons, ← ih]
    cases contents id <;> rfl

/-- The sections that have contents are among those listed. -/
theorem mem_of_mem_present {id : SectionId} {ids : List SectionId} {contents : SectionId → Option (List UInt8)}
    (inside : id ∈ (present ids contents).map (·.1)) : id ∈ ids := by
  obtain ⟨part, there, rfl⟩ := List.mem_map.1 inside
  obtain ⟨other, listed, there⟩ := List.mem_filterMap.1 there
  obtain ⟨content, -, rfl⟩ := Option.map_eq_some_iff.1 there
  exact listed

section Places

variable {front rest content : List UInt8} {id : SectionId} {parts : List (SectionId × List UInt8)}

/-- The length of a section. -/
theorem length_sectionOf (small : content.length < UInt32.size) :
    (Write.sectionOf id.toByte content).length = 1 + (Write.unsigned content.length).length + content.length := by
  rw [Write.sectionOf, Write.byteVector, List.length_cons, List.length_append, Nat.mod_eq_of_lt small]
  omega

/-- What is behind the size of a section. -/
theorem drop_sectionOf (small : content.length < UInt32.size) :
    (front ++ (Write.sectionOf id.toByte content ++ rest)).drop
      (front.length + 1 + (Write.unsigned content.length).length) = content ++ rest := by
  rw [Nat.add_assoc, ← List.drop_drop, List.drop_left, Write.sectionOf, Write.byteVector, Nat.mod_eq_of_lt small,
    List.cons_append, Nat.add_comm 1, List.drop_succ_cons, List.append_assoc, List.drop_left]

/-- A section stands where it was written. -/
theorem isSection_of_append (small : content.length < UInt32.size) :
    IsSection (front ++ (Write.sectionOf id.toByte content ++ rest)) id (Write.unsigned content.length).length
      content.length ⟨id.name, front.length, .ofInt content.length, .ofInt 0⟩ := by
  have spelled : (front ++ (Write.sectionOf id.toByte content ++ rest)).drop (front.length + 1) =
      Write.unsigned content.length ++ (content ++ rest) := by
    rw [← List.drop_drop, List.drop_left, Write.sectionOf, Write.byteVector, Nat.mod_eq_of_lt small,
      List.cons_append, List.drop_succ_cons, List.drop_zero, List.append_assoc]
  have declared : Leb128.decodeUnsigned 32
      ((front ++ (Write.sectionOf id.toByte content ++ rest)).drop (front.length + 1)) =
        .ok (content.length, (Write.unsigned content.length).length) := by
    rw [spelled]
    exact Leb128.decodeUnsigned_encodeUnsigned small (by decide) _
  have bounds := Leb128.bytes_of_decodeUnsigned declared
  refine ⟨⟨id.toByte, ?_, ?_⟩, declared, bounds.1, bounds.2, rfl, rfl⟩
  · show (front ++ (Write.sectionOf id.toByte content ++ rest))[front.length]? = _
    rw [List.getElem?_append_right (Nat.le_refl _), Nat.sub_self]
    rfl
  · cases id <;> rfl

/-- The contents of a section are fewer bytes than all sections. -/
theorem length_lt_sections {part : SectionId × List UInt8} (inside : part ∈ parts) :
    part.2.length < (sections parts).length := by
  induction parts with
  | nil => cases inside
  | cons other parts ih =>
    have first : other.2.length < (Write.sectionOf other.1.toByte other.2).length := by
      rw [Write.sectionOf, Write.byteVector, List.length_cons, List.length_append]
      omega
    rw [sections, List.flatMap_cons, List.length_append]
    rcases List.mem_cons.1 inside with rfl | inside
    · exact Nat.lt_add_right _ first
    · exact Nat.lt_add_left _ (ih inside)

/-- Sections that stand one after the other to the end of some bytes are where `places` says. -/
theorem tiles_sections (small : ∀ part ∈ parts, part.2.length < UInt32.size) :
    Tiles (front ++ sections parts) front.length (parts.map (·.1)) (places front.length parts) := by
  induction parts generalizing front with
  | nil =>
    have ends : front.length = (front ++ sections []).length := by rw [sections, List.flatMap_nil, List.append_nil]
    rw [ends]
    exact .done
  | cons part parts ih =>
    obtain ⟨id, content⟩ := part
    have short : content.length < UInt32.size := small _ List.mem_cons_self
    have others := @ih (front ++ Write.sectionOf id.toByte content) fun other inside =>
      small other (List.mem_cons_of_mem _ inside)
    have here : IsSection (front ++ sections ((id, content) :: parts)) id _ content.length _ :=
      isSection_of_append short
    have after : front.length + (Write.sectionOf id.toByte content).length =
        front.length + 1 + (Write.unsigned content.length).length + content.length := by
      rw [length_sectionOf short]
      omega
    rw [List.append_assoc, List.length_append] at others
    refine .more here ?_
    show Tiles (front ++ sections ((id, content) :: parts))
      (front.length + 1 + (Write.unsigned content.length).length + content.length) _ _
    rw [← after]
    exact others

end Places

/-! ## Entries in their places -/

/-- The bytes between two places are those of an item. -/
def Occupies {α : Type} (Spells : α → List UInt8 → Prop) (r r' : Reader) (a : α) : Prop :=
  ∃ bytes, Spells a bytes ∧ r.rest = bytes ++ r'.rest ∧ r'.pos = r.pos + bytes.length

section Entries

variable {α : Type} {Spells : α → List UInt8 → Prop} {as : List α} {entries : List (List UInt8)} {id : SectionId}

/-- Entries in a row stand one after the other. -/
theorem row_of_forall₂ (spelled : List.Forall₂ Spells as entries) (pos : Nat) (rest : List UInt8) :
    Row (Occupies Spells) ⟨pos, entries.flatten ++ rest⟩ ⟨pos + entries.flatten.length, rest⟩ as := by
  induction spelled generalizing pos with
  | nil => exact .nil _
  | @cons a entry as entries first others ih =>
    rw [List.flatten_cons, List.append_assoc, List.length_append, ← Nat.add_assoc]
    exact .cons ⟨entry, first, rfl, rfl⟩ (ih (pos + entry.length))

/-- Items of some bytes each are no more than bytes. -/
theorem length_le_flatten (spelled : List.Forall₂ Spells as entries) (some_ : ∀ a entry, Spells a entry → entry ≠ []) :
    entries.length ≤ entries.flatten.length := by
  induction spelled with
  | nil => exact Nat.le_refl _
  | cons first _ ih =>
    have here := List.length_pos_iff.2 (some_ _ _ first)
    rw [List.length_cons, List.flatten_cons, List.length_append]
    omega

/-- The entries of a section fill it. -/
theorem filled_of_forall₂ {front rest : List UInt8} (spelled : List.Forall₂ Spells as entries)
    (some_ : ∀ a entry, Spells a entry → entry ≠ [])
    (small : (u32 entries.length ++ entries.flatten).length < UInt32.size) :
    let content := u32 entries.length ++ entries.flatten
    let begin := front.length + 1 + (Write.unsigned content.length).length
    Filled (front ++ (Write.sectionOf id.toByte content ++ rest)) (Occupies Spells) begin (begin + content.length)
      as := by
  intro content begin
  have few : entries.length < UInt32.size := by
    have le := length_le_flatten spelled some_
    rw [List.length_append] at small
    omega
  have inside : (front ++ (Write.sectionOf id.toByte content ++ rest)).drop begin = content ++ rest :=
    drop_sectionOf small
  have behind : (front ++ (Write.sectionOf id.toByte content ++ rest)).drop (begin + content.length) = rest := by
    rw [← List.drop_drop, inside, List.drop_left]
  have counted := Read.spells_u32 few begin (entries.flatten ++ rest)
  have row := row_of_forall₂ spelled (begin + (Write.unsigned entries.length).length) rest
  have count : u32 entries.length = Write.unsigned entries.length := by rw [u32, Nat.mod_eq_of_lt few]
  have width : begin + content.length =
      begin + (Write.unsigned entries.length).length + entries.flatten.length := by
    have length : content.length = (u32 entries.length).length + entries.flatten.length := List.length_append
    rw [length, count]
    exact (Nat.add_assoc ..).symm
  have size : as.length = entries.length := spelled.length_eq
  refine ⟨⟨begin + (Write.unsigned entries.length).length, entries.flatten ++ rest⟩, ?_, ?_⟩
  · rw [Reader.advance, Reader.start, inside, Nat.zero_add, size, ← counted, ← List.append_assoc, ← count]
  · rw [Reader.advance, Reader.start, behind, Nat.zero_add, width]
    exact row

/-- A section that is not there has no entries. -/
theorem hasEntries_of_absent {bytes : List UInt8} {parts : List (SectionId × List UInt8)}
    {R : Reader → Reader → α → Prop} (absent : id ∉ parts.map (·.1)) (offset : Nat) :
    HasEntries bytes id R (parts.map (·.1)) (places offset parts) [] := by
  induction parts generalizing offset with
  | nil => exact .absent
  | cons part parts ih =>
    obtain ⟨other, behind⟩ := List.ne_and_not_mem_of_not_mem_cons absent
    exact .later (Ne.symm other) (ih behind _)

/-- The entries of one of the sections. -/
theorem hasEntries_of_forall₂ {contents : SectionId → Option (List UInt8)} {ids : List SectionId}
    {front : List UInt8} (once : ids.Nodup) (listed : id ∈ ids) (spelled : List.Forall₂ Spells as entries)
    (some_ : ∀ a entry, Spells a entry → entry ≠ []) (is : contents id = filled entries)
    (small : ∀ part ∈ present ids contents, part.2.length < UInt32.size) :
    HasEntries (front ++ sections (present ids contents)) id (Occupies Spells)
      ((present ids contents).map (·.1)) (places front.length (present ids contents)) as := by
  induction ids generalizing front with
  | nil => cases listed
  | cons other ids ih =>
    obtain ⟨fresh, once⟩ := List.nodup_cons.1 once
    rw [present_cons] at small ⊢
    by_cases same : other = id
    · subst same
      have behind : other ∉ (present ids contents).map (·.1) := fun inside => fresh (mem_of_mem_present inside)
      rw [is] at small ⊢
      cases entries with
      | nil =>
        cases spelled
        exact hasEntries_of_absent behind _
      | cons entry entries =>
        have short : (u32 (entry :: entries).length ++ (entry :: entries).flatten).length < UInt32.size :=
          small _ List.mem_cons_self
        exact .here (isSection_of_append short) (filled_of_forall₂ spelled some_ short) behind
    · have inside : id ∈ ids := (List.mem_cons.1 listed).resolve_left (Ne.symm same)
      cases missing : contents other with
      | none =>
        rw [missing] at small
        exact ih once inside small
      | some content =>
        rw [missing] at small
        have others := @ih (front ++ Write.sectionOf other.toByte content) once inside fun part later =>
          small part (List.mem_cons_of_mem _ later)
        rw [List.append_assoc, List.length_append] at others
        exact .later same others

end Entries

/-! ## Index spaces of a binary -/

/-- The section that has the definitions of a kind. -/
def definitionSection : ExportKind → SectionId
  | .func => .function
  | .table => .table
  | .memory => .memory
  | .global => .global

/-- The entry of a definition.  That of a function is the number of its type; its code is in another section. -/
def EntryOf (types : List FuncType) : Definition → List UInt8 → Prop
  | .imported i, entry => ∃ t, entry = importEntry i t ∧ ∀ d, i.descr = .func d → IndexesType types d.signature t
  | .func g, entry => ∃ t, entry = u32 t ∧ IndexesType types g.signature t
  | .table t, entry => entry = tableType t
  | .memory d, entry => entry = Encode.limits d.limits
  | .global type init, entry => ∃ t u, globalEntry (type, init) t = .ok (entry, u)

/-- What the indices of a kind stand for, by the entries of a binary: those of the import section that have this kind,
and then those of the section of the kind. -/
def HasSpace (bytes : List UInt8) (ids : List SectionId) (ss : List SectionMetadata) (types : List FuncType)
    (kind : ExportKind) (definitions : List Definition) : Prop :=
  ∃ imports defined, HasEntries bytes .imports (Occupies (EntryOf types)) ids ss imports ∧
    HasEntries bytes (definitionSection kind) (Occupies (EntryOf types)) ids ss defined ∧
    definitions = imports.filter (·.kind == kind) ++ defined

/-- A binary that numbers the definitions of a module as the module does.  Its sections follow one another from the
header on, each as long as it says, and each has as many entries as it says. -/
structure Numbers (bytes : List UInt8) (f : Fields) (ids : List SectionId) (ss : List SectionMetadata)
    (types : List FuncType) : Prop where
  tiles : Tiles bytes 8 ids ss
  signatures : HasEntries bytes .type (Occupies fun t entry => entry = funcType t) ids ss types
  spaces : ∀ kind, HasSpace bytes ids ss types kind (f.space kind)
  bodies : HasEntries bytes .code
    (Occupies fun g entry => ∃ t code u, body g t = .ok (code, u) ∧ entry = Write.byteVector code) ids ss f.funcs

/-- The contents of the sections of a module, of which the entries are known. -/
def contentsOf (types imports functions tables memories globals exports elements bodies data : List (List UInt8))
    (start names : Option (List UInt8)) : SectionId → Option (List UInt8)
  | .type => filled types
  | .imports => filled imports
  | .function => filled functions
  | .table => filled tables
  | .memory => filled memories
  | .global => filled globals
  | .exports => filled exports
  | .start => start
  | .element => filled elements
  | .code => filled bodies
  | .data => filled data
  | .custom => names

/-- The sections of a binary as it has them, with the names at the end. -/
def sectionIds : List SectionId :=
  [.type, .imports, .function, .table, .memory, .global, .exports, .start, .element, .code, .data, .custom]

/-- The names are a section, if there are any. -/
theorem exists_nameSection (imported : Nat) (funcs : List Func) : ∃ names : Option (List UInt8),
    nameSection imported funcs = names.elim [] (Write.sectionOf SectionId.custom.toByte) := by
  rw [nameSection]
  dsimp only
  split
  · exact ⟨none, rfl⟩
  · exact ⟨some _, rfl⟩

section EntryOf

variable {types : List FuncType}

theorem u32_ne_nil (n : Nat) : u32 n ≠ [] :=
  List.length_pos_iff.1 (Leb128.length_encodeUnsigned_pos _)

/-- No entry is empty. -/
theorem ne_nil_of_entryOf (d : Definition) (entry : List UInt8) (spelled : EntryOf types d entry) : entry ≠ [] := by
  cases d with
  | imported i =>
    obtain ⟨t, rfl, -⟩ := spelled
    refine List.append_ne_nil_of_right_ne_nil _ ?_
    cases i.descr <;> exact List.cons_ne_nil _ _
  | func g =>
    obtain ⟨t, rfl, -⟩ := spelled
    exact u32_ne_nil t
  | table t =>
    obtain rfl := spelled
    exact List.cons_ne_nil _ _
  | memory d =>
    obtain rfl := spelled
    unfold Encode.limits
    split <;> exact List.cons_ne_nil _ _
  | global type init =>
    obtain ⟨t, u, done⟩ := spelled
    obtain ⟨code, _, -, done⟩ := Encode.bind_eq_ok_iff.1 done
    obtain ⟨rfl, -⟩ := Encode.pure_eq_ok_iff.1 done
    exact List.cons_ne_nil _ _

/-- The imports of a module, with the numbers of their types. -/
theorem entryOf_imports {is : List ModuleImport} {ts : List Nat}
    (typed : List.Forall₂ (fun i t => ∀ d, i.descr = .func d → IndexesType types d.signature t) is ts) :
    List.Forall₂ (EntryOf types) (is.map .imported) (is.zipWith importEntry ts) := by
  induction typed with
  | nil => exact .nil
  | cons first _ ih => exact .cons ⟨_, rfl, first⟩ ih

end EntryOf

/-- A binary of less than four gigabytes has the definitions of its module at their numbers. -/
theorem numbers_of_encode {m : Module} {bytes : List UInt8} (encoded : encode m = .ok bytes)
    (small : bytes.length < UInt32.size) : ∃ ids ss types, Numbers bytes (.ofModule m) ids ss types := by
  obtain ⟨types, importTypes, funcTypes, globals, exports, elements, bodies, data, start, spelled, imported, declared,
    initialised, defined⟩ := lists_of_encode encoded
  obtain ⟨names, named⟩ := exists_nameSection (Fields.ofModule m).importedFuncs (Fields.ofModule m).funcs
  generalize Fields.ofModule m = f at *
  let contents := contentsOf (types.map funcType) (f.imports.zipWith importEntry importTypes) (funcTypes.map u32)
    (f.tables.map tableType) (f.memories.map fun m => Encode.limits m.limits) globals exports elements
    (bodies.map Write.byteVector) data start names
  obtain rfl : bytes = Write.preamble ++ sections (present sectionIds contents) := by
    rw [spelled, sections_present]
    simp only [sectionIds, List.flatMap_cons, List.flatMap_nil, List.append_nil, List.append_assoc, contents,
      contentsOf, vectorSection_eq_elim, named]
  have short : ∀ part ∈ present sectionIds contents, part.2.length < UInt32.size := by
    intro part inside
    have part := length_lt_sections inside
    rw [List.length_append] at small
    omega
  have entries {α : Type} {Spells : α → List UInt8 → Prop} {as : List α} {es : List (List UInt8)} (id : SectionId)
      (each : List.Forall₂ Spells as es) (some_ : ∀ a entry, Spells a entry → entry ≠ [])
      (is : contents id = filled es) :
      HasEntries (Write.preamble ++ sections (present sectionIds contents)) id (Occupies Spells)
        ((present sectionIds contents).map (·.1)) (places Write.preamble.length (present sectionIds contents)) as :=
    hasEntries_of_forall₂ (by decide) (by cases id <;> decide) each some_ is short
  have imports := entries .imports (entryOf_imports imported) ne_nil_of_entryOf rfl
  refine ⟨_, _, types, tiles_sections short, ?_, fun kind => ⟨_, _, imports, ?_, rfl⟩, ?_⟩
  · refine entries .type (List.forall₂_map_right_iff.2 (List.forall₂_same.2 fun t _ => rfl)) ?_ rfl
    rintro t _ rfl
    exact List.cons_ne_nil _ _
  · cases kind with
    | func =>
      exact entries .function (List.forall₂_map_left_iff.2 (List.forall₂_map_right_iff.2
        (declared.imp fun g t typed => ⟨t, rfl, typed⟩))) ne_nil_of_entryOf rfl
    | table =>
      exact entries .table (List.forall₂_map_left_iff.2 (List.forall₂_map_right_iff.2
        (List.forall₂_same.2 fun t _ => rfl))) ne_nil_of_entryOf rfl
    | memory =>
      exact entries .memory (List.forall₂_map_left_iff.2 (List.forall₂_map_right_iff.2
        (List.forall₂_same.2 fun d _ => rfl))) ne_nil_of_entryOf rfl
    | global => exact entries .global (List.forall₂_map_left_iff.2 initialised) ne_nil_of_entryOf rfl
  · refine entries .code (List.forall₂_map_right_iff.2 (defined.imp fun g code ⟨t, u, done⟩ => ⟨t, code, u, done, rfl⟩))
      ?_ rfl
    rintro g _ ⟨t, code, u, -, rfl⟩
    exact List.append_ne_nil_of_left_ne_nil (List.length_pos_iff.1 (Leb128.length_encodeUnsigned_pos _)) _

end WasmEngine.Binary
