import WasmEngine.Proofs.Binary.ModuleSpelling

/-!
# What is not written

The names of labels and the sizes of bodies do not change what is written of entries
(`moduleBytes_congr`), and bodies that belong to no function are not part of a module
(`moduleOf_trimmed`).
-/

namespace WasmEngine

open Node

/-! ## Labels are not written -/

namespace Binary.Encode

mutual

/-- Labels are not encoded. -/
theorem instruction_unlabelled (node : Node) : instruction node.unlabelled = instruction node := by
  cases node with
  | block label body result =>
    rw [unlabelled, instruction, instruction, instructions_unlabelledIn body]
  | loop label result body =>
    rw [unlabelled, instruction, instruction, instructions_unlabelledIn body]
  | ifElse label result consequent alternate =>
    have empty : (unlabelledIn alternate).isEmpty = alternate.isEmpty := by cases alternate <;> rfl
    rw [unlabelled, instruction, instruction, instructions_unlabelledIn consequent,
      instructions_unlabelledIn alternate, empty]
  | _ => rfl

theorem instructions_unlabelledIn (nodes : List Node) :
    instructions (unlabelledIn nodes) = instructions nodes := by
  cases nodes with
  | nil => rfl
  | cons node nodes =>
    rw [unlabelledIn, instructions, instructions, instruction_unlabelled node,
      instructions_unlabelledIn nodes]

end

end Binary.Encode

namespace Binary

open Outcome Decode

variable {T : List Signature}

/-- Expressions that differ in labels alone are spelled alike. -/
theorem expressionBytes_unlabelledIn (body : List Node) :
    expressionBytes T (unlabelledIn body) = expressionBytes T body := by
  rw [expressionBytes, Encode.instructions_unlabelledIn, expressionBytes]

mutual

theorem unlabelled_unlabelled (node : Node) : node.unlabelled.unlabelled = node.unlabelled := by
  cases node with
  | block label body result => rw [unlabelled, unlabelled, unlabelledIn_unlabelledIn body]
  | loop label result body => rw [unlabelled, unlabelled, unlabelledIn_unlabelledIn body]
  | ifElse label result consequent alternate =>
    rw [unlabelled, unlabelled, unlabelledIn_unlabelledIn consequent,
      unlabelledIn_unlabelledIn alternate]
  | func name sig locals body metadata => rw [unlabelled, unlabelled, unlabelledIn_unlabelledIn body]
  | global type init name => rw [unlabelled, unlabelled, unlabelledIn_unlabelledIn init]
  | elem target offset funcs => rw [unlabelled, unlabelled, unlabelledIn_unlabelledIn offset]
  | data target offset init => rw [unlabelled, unlabelled, unlabelledIn_unlabelledIn offset]
  | _ => rfl

theorem unlabelledIn_unlabelledIn (nodes : List Node) :
    unlabelledIn (unlabelledIn nodes) = unlabelledIn nodes := by
  cases nodes with
  | nil => rfl
  | cons node nodes =>
    rw [unlabelledIn, unlabelledIn, unlabelled_unlabelled node, unlabelledIn_unlabelledIn nodes]

end

/-- Whether a body can be spelled does not depend on its labels. -/
theorem isExpression_unlabelledIn {body : List Node} :
    IsExpression T (unlabelledIn body) ↔ IsExpression T body := by
  have codes (bytes : List UInt8) : Codes T 0 (unlabelledIn body) bytes ↔ Codes T 0 body bytes :=
    ⟨fun ⟨encodes, rereads⟩ => ⟨by rwa [Encode.instructions_unlabelledIn] at encodes,
        by simpa only [unlabelledIn_unlabelledIn] using rereads⟩,
      fun ⟨encodes, rereads⟩ => ⟨by rwa [Encode.instructions_unlabelledIn],
        by simpa only [unlabelledIn_unlabelledIn] using rereads⟩⟩
  exact exists_congr codes

namespace Entry

/-- Without its labels and names an entry is spelled as before. -/
theorem bytes_plain (x : Entry) : x.plain.bytes T = x.bytes T := by
  cases x with
  | global | elem | data => simp only [plain, bytes, expressionBytes_unlabelledIn]
  | code c => simp only [plain, bytes, bodyBytes, expressionBytes_unlabelledIn]
  | _ => rfl

theorem fine_plain (x : Entry) : x.plain.Fine T ↔ x.Fine T := by
  cases x with
  | global | elem => simp only [plain, Fine, isExpression_unlabelledIn]
  | data => simp only [plain, Fine, isExpression_unlabelledIn, length_unlabelledIn]
  | code c =>
    simp only [plain, Fine, isExpression_unlabelledIn, bodyBytes, expressionBytes_unlabelledIn]
  | _ => rfl

/-- An entry that differs in labels and names alone can be spelled as well. -/
theorem Fine.congr {x y : Entry} (fine : x.Fine T) (same : y.plain = x.plain) : y.Fine T := by
  rwa [← fine_plain, same, fine_plain]

end Entry

/-! ## Entries up to labels and sizes -/

section Congr

variable {es ys : List Entry} (same : ys.map Entry.plain = es.map Entry.plain)
include same

/-- Entries that are the same without labels and names are so section by section. -/
theorem ofSection_congr (id : SectionId) :
    (ofSection id ys).map Entry.plain = (ofSection id es).map Entry.plain := by
  have plain (xs : List Entry) :
      (ofSection id xs).map Entry.plain = ofSection id (xs.map Entry.plain) := by
    rw [ofSection, ofSection, List.filter_map]
    refine congrArg (List.map _) (List.filter_congr fun x _ => ?_)
    rw [Function.comp, Entry.home_plain]
  rw [plain, same, ← plain]

theorem signaturesOf_congr : signaturesOf ys = signaturesOf es := by
  have plain (xs : List Entry) : signaturesOf xs = (xs.map Entry.plain).filterMap Entry.signature? := by
    rw [signaturesOf, List.filterMap_map]
    refine congrArg (List.filterMap · xs) (funext fun x => ?_)
    cases x <;> rfl
  rw [plain, same, ← plain]

theorem importedFuncs_congr : importedFuncs ys = importedFuncs es := by
  have plain (xs : List Entry) :
      importedFuncs xs = (xs.map Entry.plain).countP Entry.isImportedFunc := by
    rw [importedFuncs, List.countP_map]
    refine List.countP_congr fun x _ => ?_
    cases x <;> rfl
  rw [plain, same, ← plain]

/-- The sections of such entries are the same bytes. -/
theorem sectionBytes_congr (id : SectionId) :
    sectionBytes T id (ofSection id ys) = sectionBytes T id (ofSection id es) := by
  have plain (xs : List Entry) : sectionBytes T id xs = sectionBytes T id (xs.map Entry.plain) := by
    have bytes : (xs.map Entry.plain).flatMap (Entry.bytes T) = xs.flatMap (Entry.bytes T) := by
      rw [List.flatMap_map]
      exact congrArg (List.flatMap · xs) (funext fun x => x.bytes_plain)
    simp only [sectionBytes, sectionContents, bytes, List.length_map, List.isEmpty_map]
  rw [plain, ofSection_congr same, ← plain]

/-- Labels and sizes are not written. -/
theorem moduleBytes_congr (fs : List FunctionName) : moduleBytes ys fs = moduleBytes es fs := by
  simp only [moduleBytes, typesOf_congr same, sectionBytes_congr same]

theorem forall₂_of_plain : List.Forall₂ (fun y x => y.plain = x.plain) ys es := by
  rwa [← List.forall₂_eq_eq_eq, List.forall₂_map_left_iff, List.forall₂_map_right_iff] at same

/-- Such entries can all be spelled if one list of them can. -/
theorem fine_congr (fine : ∀ x ∈ es, x.Fine (typesOf es)) : ∀ y ∈ ys, y.Fine (typesOf ys) := by
  intro y inside
  obtain ⟨x, listed, plain⟩ := List.mem_map.1 (same ▸ List.mem_map_of_mem inside)
  rw [typesOf_congr same]
  exact (fine x listed).congr plain.symm

end Congr

/-! ## The order of sections -/

/-- Entries that are put in the order of the sections are ordered by the numbers of their sections. -/
theorem pairwise_bySection (es : List Entry) :
    (bySection es).Pairwise fun x y => x.home.toNat ≤ y.home.toNat := by
  refine List.pairwise_flatMap.2 ⟨fun id _ => ?_, ?_⟩
  · refine List.pairwise_of_forall_mem_list fun x left y right => ?_
    rw [(mem_ofSection.1 left).2, (mem_ofSection.1 right).2]
  · have ordered : SectionId.ordered.Pairwise fun id id' => id.toNat ≤ id'.toNat := by decide
    refine ordered.imp fun le x left y right => ?_
    rwa [(mem_ofSection.1 left).2, (mem_ofSection.1 right).2]

/-- An entry that belongs to no later section than the others goes in front of them. -/
theorem bySection_cons {x : Entry} {es : List Entry}
    (first : ∀ y ∈ es, x.home.toNat ≤ y.home.toNat) : bySection (x :: es) = x :: bySection es := by
  have before (id : SectionId) (lt : id.toNat < x.home.toNat) : ofSection id es = [] :=
    ofSection_eq_nil fun y inside same => by
      have := first y inside
      rw [same] at this
      omega
  have some_ : x.home ≠ .custom := by cases x <;> nofun
  simp only [bySection, SectionId.ordered, List.flatMap_cons, List.flatMap_nil, ofSection_cons]
  generalize x.home = id at before some_
  cases id with
  | custom => exact absurd rfl some_
  | _ => simp (disch := decide) [before]

/-- Entries in the order of their sections are grouped. -/
theorem bySection_eq_of_pairwise {es : List Entry}
    (sorted : es.Pairwise fun x y => x.home.toNat ≤ y.home.toNat) : bySection es = es := by
  induction sorted with
  | nil => rfl
  | cons first _ ih => rw [bySection_cons first, ih]

/-- Whether entries are in the order of the sections is a matter of their sections only. -/
theorem grouped_congr {es ys : List Entry} (same : ys.map Entry.plain = es.map Entry.plain)
    (grouped : bySection es = es) : bySection ys = ys := by
  have homes (xs : List Entry) : (xs.map Entry.plain).Pairwise (fun x y => x.home.toNat ≤ y.home.toNat) ↔
      xs.Pairwise fun x y => x.home.toNat ≤ y.home.toNat := by
    simp only [List.pairwise_map, Entry.home_plain]
  refine bySection_eq_of_pairwise ((homes ys).1 ?_)
  rw [same, homes, ← grouped]
  exact pairwise_bySection es

/-- Putting sections in a row and taking one of them out gives that section. -/
theorem ofSection_sections {g : SectionId → List Entry} (home : ∀ id, ∀ x ∈ g id, x.home = id)
    (id : SectionId) : ofSection id (SectionId.ordered.flatMap g) = g id := by
  have none : g .custom = [] := List.eq_nil_iff_forall_not_mem.2 fun x inside => by
    have := home _ x inside
    cases x <;> cases this
  have parts (ids : List SectionId) : ofSection id (ids.flatMap g) =
      ids.flatMap fun other => if other = id then g other else [] := by
    induction ids with
    | nil => rfl
    | cons other ids ih =>
      rw [List.flatMap_cons, ofSection_append, ih, List.flatMap_cons]
      congr 1
      split_ifs with same
      · exact ofSection_eq_self fun x inside => same ▸ home other x inside
      · exact ofSection_eq_nil fun x inside here => same ((home other x inside).symm.trans here)
  rw [parts]
  cases id with
  | custom => simp [SectionId.ordered, none]
  | _ => simp [SectionId.ordered]

/-- Entries that are given section by section are grouped. -/
theorem grouped_sections {g : SectionId → List Entry} (home : ∀ id, ∀ x ∈ g id, x.home = id) :
    bySection (SectionId.ordered.flatMap g) = SectionId.ordered.flatMap g := by
  rw [bySection]
  exact congrArg (List.flatMap · _) (funext (ofSection_sections home))

/-! ## Bodies without a function -/

/-- The entries of a section without the bodies that belong to no function. -/
def kept (es : List Entry) (id : SectionId) : List Entry :=
  if id = .code then (ofSection .code es).take (signaturesOf es).length else ofSection id es

/-- Entries without the bodies that belong to no function. -/
def trimmed (es : List Entry) : List Entry := SectionId.ordered.flatMap (kept es)

variable {es : List Entry}

theorem mem_kept {id : SectionId} {x : Entry} (inside : x ∈ kept es id) :
    x ∈ es ∧ x.home = id := by
  unfold kept at inside
  split_ifs at inside with isCode
  · rw [isCode]
    exact mem_ofSection.1 (List.mem_of_mem_take inside)
  · exact mem_ofSection.1 inside

theorem mem_trimmed {x : Entry} (inside : x ∈ trimmed es) : x ∈ es := by
  obtain ⟨id, -, inside⟩ := List.mem_flatMap.1 inside
  exact (mem_kept inside).1

/-- Of each section the entries that are kept are in their place. -/
theorem ofSection_trimmed (id : SectionId) : ofSection id (trimmed es) = kept es id :=
  ofSection_sections (fun _ _ inside => (mem_kept inside).2) id

/-- Dropping bodies leaves the order of the sections as it is. -/
theorem grouped_trimmed : bySection (trimmed es) = trimmed es :=
  grouped_sections fun _ _ inside => (mem_kept inside).2

/-- Only bodies are dropped. -/
theorem filter_trimmed (grouped : bySection es = es) :
    (trimmed es).filter (·.home ≠ .code) = es.filter (·.home ≠ .code) := by
  rw [filter_home grouped_trimmed (· ≠ .code), filter_home grouped (· ≠ .code)]
  refine List.flatMap_congr fun id listed => ?_
  have notCode : id ≠ .code := by simpa using (List.mem_filter.1 listed).2
  rw [ofSection_trimmed, kept, if_neg notCode]

/-- What does not depend on bodies is the same without some of them. -/
theorem numbered_trimmed {β : Type} {counts : Entry → Bool} {f : Nat → Entry → Option β}
    (grouped : bySection es = es)
    (without : ∀ k x, x.home = .code → f k x = none ∧ counts x = false) (k : Nat) :
    numbered counts f k (trimmed es) = numbered counts f k es := by
  have left (xs : List Entry) :
      numbered counts f k (xs.filter (·.home ≠ .code)) = numbered counts f k xs :=
    numbered_filter _ (fun k x code => without k x (not_not.1 (of_decide_eq_false code))) k xs
  rw [← left, filter_trimmed grouped, left]

/-- What is picked from other entries than bodies is the same after bodies were dropped. -/
theorem filterMap_trimmed {β : Type} {g : Entry → Option β} (grouped : bySection es = es)
    (without : ∀ x, x.home = .code → g x = none) : (trimmed es).filterMap g = es.filterMap g := by
  have same := numbered_trimmed (f := fun _ => g) grouped
    (fun _ x code => ⟨without x code, rfl⟩) 0
  rwa [numbered_const, numbered_const] at same

/-- Other entries than bodies are as many after bodies were dropped. -/
theorem countP_trimmed {q : Entry → Bool} (grouped : bySection es = es)
    (without : ∀ x, x.home = .code → q x = false) : (trimmed es).countP q = es.countP q := by
  have left (xs : List Entry) : (xs.filter (·.home ≠ .code)).countP q = xs.countP q := by
    rw [List.countP_filter]
    refine List.countP_congr fun x _ => ?_
    by_cases code : x.home = .code
    · rw [without x code, Bool.false_and]
    · rw [decide_eq_true code, Bool.and_true]
  rw [← left, filter_trimmed grouped, left]

theorem typesOf_trimmed (grouped : bySection es = es) : typesOf (trimmed es) = typesOf es :=
  filterMap_trimmed grouped fun x code => by
    cases x with
    | code => rfl
    | _ => cases code

theorem signaturesOf_trimmed (grouped : bySection es = es) :
    signaturesOf (trimmed es) = signaturesOf es :=
  filterMap_trimmed grouped fun x code => by
    cases x with
    | code => rfl
    | _ => cases code

theorem importedFuncs_trimmed (grouped : bySection es = es) :
    importedFuncs (trimmed es) = importedFuncs es :=
  countP_trimmed grouped fun x code => by
    cases x with
    | code => rfl
    | _ => cases code

/-- No index space loses anything with the bodies that are dropped. -/
theorem countOf_trimmed (grouped : bySection es = es) (kind : ExportKind) :
    countOf kind (trimmed es) = countOf kind es :=
  countP_trimmed grouped fun x code => by
    cases x with
    | code => rfl
    | _ => cases code

theorem ofSection_code (es : List Entry) : ofSection .code es = (codeOf es).map .code := by
  induction es with
  | nil => rfl
  | cons x es ih =>
    rw [ofSection_cons]
    cases x with
    | code c => exact congrArg (Entry.code c :: ·) ih
    | _ => exact ih

/-- Bodies as entries are these bodies again. -/
theorem codeOf_map (cs : List CodeEntry) : codeOf (cs.map .code) = cs := by
  rw [codeOf, List.filterMap_map]
  exact List.filterMap_some

/-- The bodies that are kept are those that have a function. -/
theorem codeOf_trimmed : codeOf (trimmed es) = (codeOf es).take (signaturesOf es).length := by
  have bodies : (codeOf (trimmed es)).map Entry.code =
      ((codeOf es).take (signaturesOf es).length).map Entry.code := by
    rw [← ofSection_code, ofSection_trimmed, kept, if_pos rfl, ofSection_code, List.map_take]
  rw [← codeOf_map (codeOf _), bodies, codeOf_map]

/-- Of the second list no more is looked at than the first is long. -/
theorem zipWith_take {α β γ : Type} (f : α → β → γ) (as : List α) (bs : List β) :
    List.zipWith f as (bs.take as.length) = List.zipWith f as bs := by
  induction as generalizing bs with
  | nil => rfl
  | cons a as ih =>
    cases bs with
    | nil => rfl
    | cons b bs =>
      rw [List.length_cons, List.take_succ_cons, List.zipWith_cons_cons, ih, List.zipWith_cons_cons]

/-- The bodies that belong to no function are not part of the module. -/
theorem moduleOf_trimmed (metadata : ModuleMetadata) (grouped : bySection es = es) :
    moduleOf metadata (trimmed es) = moduleOf metadata es := by
  have fields : fieldsOf (trimmed es) = fieldsOf es :=
    numbered_trimmed grouped (fun k x code => by
      cases x with
      | code => exact ⟨rfl, rfl⟩
      | _ => cases code) 0
  have exports : (trimmed es).filterMap Entry.export? = es.filterMap Entry.export? :=
    filterMap_trimmed grouped fun x code => by
      cases x with
      | code => rfl
      | _ => cases code
  have funcs : definitions metadata (trimmed es) = definitions metadata es := by
    have length : ((declarations 0 (signaturesOf es)).zipIdx (importedFuncs es)).length =
        (signaturesOf es).length := by rw [List.length_zipIdx, length_declarations]
    rw [definitions, signaturesOf_trimmed grouped, importedFuncs_trimmed grouped, codeOf_trimmed,
      definitions, ← length, zipWith_take]
  rw [moduleOf, fields, exports, funcs, moduleOf]

end Binary

end WasmEngine
