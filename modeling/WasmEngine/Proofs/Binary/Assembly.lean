import WasmEngine.Proofs.Binary.SectionSpelling

/-!
# Programs of entries

The program that a decoder ends with is determined by the entries that it read and by the names of the
name section (`finish_eq_ok_iff`).
-/

namespace WasmEngine.Binary

open Outcome Decode

/-! ## Numbered lists -/

section Numbered

variable {β γ : Type} {counts : Entry → Bool} {f : Nat → Entry → Option β}

/-- The numbers of two lists in a row: those of the second go on from how many of the first count. -/
theorem numbered_append (k : Nat) (xs ys : List Entry) : numbered counts f k (xs ++ ys) =
    numbered counts f k xs ++ numbered counts f (k + xs.countP counts) ys := by
  induction xs generalizing k with
  | nil => rfl
  | cons x xs ih =>
    have count : (if counts x then k + 1 else k) + xs.countP counts = k + (x :: xs).countP counts := by
      rw [List.countP_cons]
      split_ifs <;> omega
    rw [List.cons_append, numbered, numbered, ih, List.append_assoc, count]

theorem filterMap_numbered (g : β → Option γ) (k : Nat) (es : List Entry) :
    (numbered counts f k es).filterMap g =
      numbered counts (fun k x => (f k x).bind g) k es := by
  induction es generalizing k with
  | nil => rfl
  | cons x es ih =>
    rw [numbered, numbered, List.filterMap_append, ih]
    congr 1
    cases f k x with
    | none => rfl
    | some b => cases given : g b <;> simp [given]

/-- What is numbered comes from one of the entries. -/
theorem mem_numbered {b : β} {k : Nat} {es : List Entry} (inside : b ∈ numbered counts f k es) :
    ∃ k, ∃ x ∈ es, f k x = some b := by
  induction es generalizing k with
  | nil => cases inside
  | cons x es ih =>
    rw [numbered, List.mem_append, Option.mem_toList] at inside
    obtain given | later := inside
    · exact ⟨k, x, List.mem_cons_self, given⟩
    · obtain ⟨k, y, listed, given⟩ := ih later
      exact ⟨k, y, List.mem_cons_of_mem _ listed, given⟩

/-- Numbering does not change how many of what is numbered have a property that the number does not matter for.
-/
theorem countP_numbered {p : β → Bool} {q : Entry → Bool} (same : ∀ k x, (f k x).any p = q x) (k : Nat)
    (es : List Entry) : (numbered counts f k es).countP p = es.countP q := by
  induction es generalizing k with
  | nil => rfl
  | cons x es ih =>
    have here := same k x
    rw [numbered, List.countP_append, ih, List.countP_cons, Nat.add_comm]
    congr 1
    cases given : f k x with
    | none => simp [← here, given]
    | some b => simp [← here, given]

/-- Where the number does not matter, numbering only picks. -/
theorem numbered_const (counts : Entry → Bool) (g : Entry → Option β) (k : Nat) (es : List Entry) :
    numbered counts (fun _ => g) k es = es.filterMap g := by
  induction es generalizing k with
  | nil => rfl
  | cons x es ih =>
    rw [numbered, ih]
    cases given : g x <;> simp [given]

/-- Entries that give nothing and do not count may be left out. -/
theorem numbered_filter (p : Entry → Bool)
    (without : ∀ k x, p x = false → f k x = none ∧ counts x = false) (k : Nat) (es : List Entry) :
    numbered counts f k (es.filter p) = numbered counts f k es := by
  induction es generalizing k with
  | nil => rfl
  | cons x es ih =>
    cases kept : p x with
    | true => rw [List.filter_cons_of_pos kept, numbered, numbered, ih]
    | false =>
      obtain ⟨nothing, uncounted⟩ := without k x kept
      rw [List.filter_cons_of_neg (by simp [kept]), numbered, nothing, uncounted, ih]
      rfl

/-- What one section gives is related to its entries one by one. -/
theorem forall₂_numbered {R : β → Entry → Prop} {id : SectionId} {es : List Entry}
    (here : ∀ k, ∀ x ∈ es, x.home = id → ∃ b, f k x = some b ∧ R b x)
    (elsewhere : ∀ k x, x.home ≠ id → f k x = none) (k : Nat) :
    List.Forall₂ R (numbered counts f k es) (ofSection id es) := by
  induction es generalizing k with
  | nil => exact .nil
  | cons x es ih =>
    have others := ih (fun k y inside => here k y (List.mem_cons_of_mem _ inside))
      (if counts x then k + 1 else k)
    rw [numbered, ofSection_cons]
    by_cases home : x.home = id
    · obtain ⟨b, given, related⟩ := here k x List.mem_cons_self home
      rw [if_pos home, given]
      exact .cons related others
    · rw [if_neg home, elsewhere k x home]
      exact others

/-- What is picked from entries of one home stands in the order of the section with that home. -/
theorem forall₂_filterMap {R : β → Entry → Prop} {id : SectionId} {es : List Entry}
    {g : Entry → Option β} (here : ∀ x ∈ es, x.home = id → ∃ b, g x = some b ∧ R b x)
    (elsewhere : ∀ x, x.home ≠ id → g x = none) :
    List.Forall₂ R (es.filterMap g) (ofSection id es) := by
  rw [← numbered_const (fun _ => false) g 0]
  exact forall₂_numbered (fun _ => here) (fun _ => elsewhere) 0

end Numbered

/-! ## Functions -/

/-- The signature that an entry gives to a function with a body. -/
def Entry.signature? : Entry → Option Signature
  | func s => some s
  | _ => none

/-- The signatures of the functions that have a body. -/
def signaturesOf (es : List Entry) : List Signature := es.filterMap Entry.signature?

/-- The bodies of functions. -/
def codeOf (es : List Entry) : List CodeEntry := es.filterMap Entry.code?

/-- Whether an entry is an imported function. -/
def Entry.isImportedFunc : Entry → Bool
  | imported _ _ (.func _) => true
  | _ => false

/-- How many functions are imported. -/
def importedFuncs (es : List Entry) : Nat := es.countP Entry.isImportedFunc

/-- The fields of a program that stand before its functions. -/
def fieldsOf (es : List Entry) : List Node :=
  numbered (Entry.hasKind .table) (fun k => Entry.field k k) 0 es

/-- The definition of a declared function, whose body it gets. -/
def define (metadata : ModuleMetadata) (f : DeclaredFunc × Nat) (c : CodeEntry) : Func :=
  applyNames metadata f.2
    ⟨f.1.id, .inline f.1.signature, c.locals.map .anonymous, c.body, some ⟨c.size⟩⟩

/-- The functions with a body from an index on, with their indices. -/
def defined (i : Nat) (fs : List DeclaredFunc) : List (DeclaredFunc × Nat) :=
  (fs.zipIdx i).filter (!·.1.isImported)

theorem defined_cons_of_imported (i : Nat) {f : DeclaredFunc} (fs : List DeclaredFunc)
    (imported : f.isImported = true) : defined i (f :: fs) = defined (i + 1) fs := by
  rw [defined, List.zipIdx_cons, List.filter_cons_of_neg (by simp [imported]), defined]

theorem defined_cons (i : Nat) {f : DeclaredFunc} (fs : List DeclaredFunc)
    (own : ¬f.isImported = true) : defined i (f :: fs) = (f, i) :: defined (i + 1) fs := by
  rw [defined, List.zipIdx_cons, List.filter_cons_of_pos (by simpa using own), defined]

/-- Assembling succeeds just if there are bodies enough, and it joins each function with the body of its place.
-/
theorem assemble_eq_ok_iff {d : Decoder} (all : d.options.ignoreCodeSection = false) {i : Nat}
    {fs : List DeclaredFunc} {code : List CodeEntry} {nodes : List Node} :
    assemble d i fs code = .ok nodes ↔ (defined i fs).length ≤ code.length ∧
      nodes = (List.zipWith (define d.metadata) (defined i fs) code).map Func.toNode := by
  induction fs generalizing i code nodes with
  | nil =>
    rw [assemble, Except.ok.injEq]
    exact ⟨fun same => ⟨Nat.zero_le _, same.symm⟩, fun holds => holds.2.symm⟩
  | cons f fs ih =>
    unfold assemble
    by_cases imported : f.isImported = true
    · rw [if_pos imported, defined_cons_of_imported i fs imported]
      exact ih
    · rw [if_neg imported, defined_cons i fs imported]
      simp only [all, Bool.false_eq_true, if_false]
      cases code with
      | nil => simp
      | cons c code =>
        simp only [bind_eq_ok_iff, pure_eq_ok_iff, ih, List.zipWith_cons_cons, List.map_cons,
          List.length_cons, Nat.add_le_add_iff_right]
        constructor
        · rintro ⟨rest, ⟨enough, rfl⟩, rfl⟩
          exact ⟨enough, rfl⟩
        · rintro ⟨enough, rfl⟩
          exact ⟨_, ⟨enough, rfl⟩, rfl⟩

/-- The declarations of some functions with a body. -/
def declarations (j : Nat) (ss : List Signature) : List DeclaredFunc :=
  (ss.zipIdx j).map fun (s, j) => ⟨.synthesized ("func_" ++ toString j), s, false⟩

theorem length_declarations (j : Nat) (ss : List Signature) : (declarations j ss).length = ss.length := by
  rw [declarations, List.length_map, List.length_zipIdx]

/-- The entries of the function section are declared in order, each under the next number. -/
theorem numbered_declared_function (k : Nat) {es : List Entry} (home : ∀ x ∈ es, x.home = .function) :
    numbered (Entry.takes "func") Entry.declared k es = declarations k (signaturesOf es) := by
  induction es generalizing k with
  | nil => rfl
  | cons x es ih =>
    obtain ⟨here, others⟩ := List.forall_mem_cons.1 home
    cases x with
    | func s =>
      show _ :: numbered _ _ (k + 1) es = _
      rw [ih (k + 1) others]
      rfl
    | _ => cases here

/-- What imports declare are imported functions, as many as the imports bring in. -/
theorem numbered_declared_imports (k : Nat) {es : List Entry} (home : ∀ x ∈ es, x.home = .imports) :
    (∀ f ∈ numbered (Entry.takes "func") Entry.declared k es, f.isImported = true) ∧
      (numbered (Entry.takes "func") Entry.declared k es).length = importedFuncs es ∧
      es.countP (Entry.takes "func") = 0 := by
  induction es generalizing k with
  | nil => exact ⟨nofun, rfl, rfl⟩
  | cons x es ih =>
    obtain ⟨here, others⟩ := List.forall_mem_cons.1 home
    cases x with
    | imported module name what =>
      obtain ⟨imported, length, none⟩ := ih k others
      cases what with
      | func s =>
        refine ⟨List.forall_mem_cons.2 ⟨rfl, imported⟩, ?_, none⟩
        show (_ :: numbered _ _ k es).length = _
        rw [List.length_cons, length]
        exact (List.countP_cons_of_pos rfl).symm
      | _ => exact ⟨imported, length, none⟩
    | _ => cases here

/-- The functions to be defined are those behind the imported ones, numbered from there on. -/
theorem defined_append (i : Nat) {fs gs : List DeclaredFunc} (imported : ∀ f ∈ fs, f.isImported = true)
    (own : ∀ f ∈ gs, f.isImported = false) : defined i (fs ++ gs) = gs.zipIdx (i + fs.length) := by
  rw [defined, List.zipIdx_append, List.filter_append]
  have none : (fs.zipIdx i).filter (!·.1.isImported) = [] := by
    refine List.filter_eq_nil_iff.2 fun f inside => ?_
    rw [imported f.1 (List.fst_mem_of_mem_zipIdx inside)]
    simp
  have all : (gs.zipIdx (i + fs.length)).filter (!·.1.isImported) = gs.zipIdx (i + fs.length) := by
    refine List.filter_eq_self.2 fun f inside => ?_
    rw [own f.1 (List.fst_mem_of_mem_zipIdx inside)]
    rfl
  rw [none, all, List.nil_append]

/-! ## Entries of some sections -/

/-- Entries of some sections stand in the order of the sections. -/
theorem filter_home {es : List Entry} (grouped : bySection es = es) (q : SectionId → Bool) :
    es.filter (fun x => q x.home) = (SectionId.ordered.filter q).flatMap (ofSection · es) := by
  have each (id : SectionId) : (ofSection id es).filter (fun x => q x.home) =
      if q id then ofSection id es else [] := by
    split_ifs with wanted
    · exact List.filter_eq_self.2 fun x inside => by rwa [(mem_ofSection.1 inside).2]
    · exact List.filter_eq_nil_iff.2 fun x inside => by rwa [(mem_ofSection.1 inside).2]
  have all (ids : List SectionId) : (ids.flatMap (ofSection · es)).filter (fun x => q x.home) =
      (ids.filter q).flatMap (ofSection · es) := by
    induction ids with
    | nil => rfl
    | cons id ids ih =>
      rw [List.flatMap_cons, List.filter_append, ih, each, List.filter_cons]
      split_ifs
      · rw [List.flatMap_cons]
      · rfl
  conv_lhs => rw [← grouped]
  exact all _

/-- The import section has all imported functions. -/
theorem importedFuncs_ofSection (es : List Entry) :
    importedFuncs (ofSection .imports es) = importedFuncs es := by
  rw [importedFuncs, ofSection, List.countP_filter, importedFuncs]
  refine List.countP_congr fun x _ => ?_
  cases x with
  | imported module name what => cases what <;> simp [Entry.isImportedFunc]
  | _ => simp [Entry.isImportedFunc]

/-- The function section has all signatures of defined functions. -/
theorem signaturesOf_ofSection (es : List Entry) :
    signaturesOf (ofSection .function es) = signaturesOf es := by
  induction es with
  | nil => rfl
  | cons x es ih =>
    rw [ofSection_cons]
    cases x with
    | func s => exact congrArg (s :: ·) ih
    | _ => exact ih

/-- Imported functions come before those that have a body. -/
theorem defined_functions {es : List Entry} (grouped : bySection es = es) :
    defined 0 (numbered (Entry.takes "func") Entry.declared 0 es) =
      (declarations 0 (signaturesOf es)).zipIdx (importedFuncs es) := by
  let q : SectionId → Bool := fun id => id = .imports ∨ id = .function
  have without : ∀ (k : Nat) (x : Entry), q x.home = false →
      x.declared k = none ∧ x.takes "func" = false := by
    intro k x other
    cases x with
    | imported module name what => cases other
    | func s => cases other
    | table l => exact ⟨rfl, show (some "table" == some "func") = false by decide⟩
    | _ => exact ⟨rfl, rfl⟩
  have split : es.filter (fun x => q x.home) = ofSection .imports es ++ ofSection .function es := by
    rw [filter_home grouped q, show SectionId.ordered.filter q = [.imports, .function] from rfl,
      List.flatMap_cons, List.flatMap_cons, List.flatMap_nil, List.append_nil]
  obtain ⟨imported, length, none⟩ := numbered_declared_imports 0
    fun x inside => (mem_ofSection.1 inside).2
  have own : ∀ f ∈ declarations 0 (signaturesOf es), f.isImported = false := by
    intro f inside
    obtain ⟨_, -, rfl⟩ := List.mem_map.1 inside
    rfl
  rw [← numbered_filter _ without, split, numbered_append, none,
    numbered_declared_function _ fun x inside => (mem_ofSection.1 inside).2, signaturesOf_ofSection,
    defined_append 0 imported own, length, importedFuncs_ofSection, Nat.zero_add]

/-! ## Programs -/

/-- The definitions of functions. -/
def definitions (metadata : ModuleMetadata) (es : List Entry) : List Func :=
  List.zipWith (define metadata) ((declarations 0 (signaturesOf es)).zipIdx (importedFuncs es))
    (codeOf es)

/-- The module of some entries. -/
def moduleOf (metadata : ModuleMetadata) (es : List Entry) : Module :=
  ⟨none, fieldsOf es ++ (definitions metadata es).map Func.toNode ++ es.filterMap Entry.export?,
    some metadata⟩

/-- A decoder ends with the module of its entries if every function has a body. -/
theorem finish_eq_ok_iff {es : List Entry} {d : Decoder} (all : d.options.ignoreCodeSection = false)
    (holds : Holds es d) (grouped : bySection es = es) {p : Program} : finish d = .ok p ↔
      (signaturesOf es).length ≤ (codeOf es).length ∧ p = ⟨[(moduleOf d.metadata es).toNode]⟩ := by
  have length : (defined 0 d.functions).length = (signaturesOf es).length := by
    rw [holds.functions, defined_functions grouped, List.length_zipIdx,
      length_declarations]
  have funcs : List.zipWith (define d.metadata) (defined 0 d.functions) (codeOf es) =
      definitions d.metadata es := by
    rw [holds.functions, defined_functions grouped]
    rfl
  have code : d.code = codeOf es := holds.code
  have fields : d.fields = fieldsOf es := holds.fields
  rw [finish, bind_eq_ok_iff]
  simp only [assemble_eq_ok_iff all, pure_eq_ok_iff, length, code, funcs, fields, holds.exports]
  constructor
  · rintro ⟨_, ⟨enough, rfl⟩, rfl⟩
    exact ⟨enough, rfl⟩
  · rintro ⟨enough, rfl⟩
    exact ⟨_, ⟨enough, rfl⟩, rfl⟩

/-- Decoding is reading the header and the sections and putting the program together. -/
theorem decode_eq_ok_iff {o : DecoderOptions} {bytes : List UInt8} {p : Program} : decode o bytes = .ok p ↔
    ∃ d₁ d, header (.start o bytes) = .ok () d₁ ∧ readSections (d₁.reader.remaining + 1) d₁ = .ok () d ∧
      finish d = .ok p := by
  have runs : decode o bytes = .ok p ↔ ∃ e, module (.start o bytes) = .ok p e := by
    rw [decode, decodeWithTrace]
    cases module (.start o bytes) <;> simp
  rw [runs]
  constructor
  · rintro ⟨e, ends⟩
    obtain ⟨⟨⟩, d₁, begins, ends⟩ := run_bind_eq_ok_iff.1 ends
    rw [bind_ok (run_get d₁)] at ends
    obtain ⟨⟨⟩, d, reads, ends⟩ := run_bind_eq_ok_iff.1 ends
    rw [bind_ok (run_get d)] at ends
    refine ⟨d₁, d, begins, reads, ?_⟩
    cases finished : finish d with
    | ok q =>
      rw [finished] at ends
      cases ends
      rfl
    | error x =>
      rw [finished] at ends
      cases ends
  · rintro ⟨d₁, d, begins, reads, finishes⟩
    refine ⟨d, run_bind_eq_ok_iff.2 ⟨(), d₁, begins, ?_⟩⟩
    rw [bind_ok (run_get d₁)]
    refine run_bind_eq_ok_iff.2 ⟨(), d, reads, ?_⟩
    rw [bind_ok (run_get d), finishes]
    rfl

/-- A program that was decoded is the module of the entries that were read. -/
theorem gathered_of_decode {bytes : List UInt8} {p : Program} (decodes : decode .default bytes = .ok p) :
    ∃ d₁ d es, header (.start .default bytes) = .ok () d₁ ∧ readSections (d₁.reader.remaining + 1) d₁ = .ok () d ∧
      Gathered bytes.length es d ∧ (signaturesOf es).length ≤ (codeOf es).length ∧
      p = ⟨[(moduleOf d.metadata es).toNode]⟩ := by
  obtain ⟨d₁, d, begins, reads, finishes⟩ := decode_eq_ok_iff.1 decodes
  obtain ⟨es, gathered⟩ := (gathered_of_header begins).sections reads
  obtain ⟨enough, program⟩ :=
    (finish_eq_ok_iff (gathered.options ▸ rfl) gathered.holds gathered.grouped).1 finishes
  exact ⟨d₁, d, es, begins, reads, gathered, enough, program⟩

/-! ## Names of functions -/

/-- A function has a type, some locals and a body, whatever its names. -/
structure Shaped (type : FuncType) (locals : List Valtype) (body : List Node) (f : Func) : Prop where
  signature : ∃ s, f.signature = .inline s ∧ s.funcType = type
  locals : f.locals.map Param.valtype = locals
  body : f.body = body

/-- Naming a parameter keeps its type. -/
theorem valtype_modify (params : List Param) (i : Nat) (id : Option String) :
    (params.modify i ({ · with id := id })).map Param.valtype = params.map Param.valtype := by
  induction params generalizing i with
  | nil => simp
  | cons p params ih =>
    cases i with
    | zero => rfl
    | succ i => simp only [List.modify_succ_cons, List.map_cons, ih]

/-- A name for a local keeps the shape of a function and the name of the function. -/
theorem Shaped.nameSlot {type : FuncType} {locals : List Valtype} {body : List Node} {f : Func}
    (shaped : Shaped type locals body f) (name : LocalName) :
    Shaped type locals body (nameSlot f name) ∧ (Decode.nameSlot f name).name = f.name := by
  obtain ⟨⟨s, inline, rfl⟩, locals, body⟩ := shaped
  unfold Decode.nameSlot
  simp only [inline]
  split_ifs
  · refine ⟨⟨⟨_, rfl, ?_⟩, locals, body⟩, rfl⟩
    rw [Signature.funcType, Signature.paramTypes, valtype_modify]
    rfl
  · exact ⟨⟨⟨s, rfl, rfl⟩, (valtype_modify ..).trans locals, body⟩, rfl⟩

/-- The name of the function of an index, if there is one. -/
def nameOf? (metadata : ModuleMetadata) (index : Nat) : Option Identifier :=
  (metadata.functionNames.find? (·.index == index)).map (.ofString ·.value)

/-- The names of a name section give a function its name and keep its shape. -/
theorem Shaped.applyNames {type : FuncType} {locals : List Valtype} {body : List Node} {f : Func}
    (shaped : Shaped type locals body f) (metadata : ModuleMetadata) (index : Nat) :
    Shaped type locals body (applyNames metadata index f) ∧
      (Decode.applyNames metadata index f).name = (nameOf? metadata index).getD f.name := by
  have slots (names : List LocalName) {f : Func} (shaped : Shaped type locals body f) :
      Shaped type locals body (names.foldl Decode.nameSlot f) ∧
        (names.foldl Decode.nameSlot f).name = f.name := by
    induction names generalizing f with
    | nil => exact ⟨shaped, rfl⟩
    | cons name names ih =>
      obtain ⟨now, same⟩ := shaped.nameSlot name
      obtain ⟨last, same'⟩ := ih now
      exact ⟨last, same'.trans same⟩
  unfold Decode.applyNames nameOf?
  cases metadata.functionNames.find? (·.index == index) with
  | none => exact slots _ shaped
  | some name => exact slots _ ⟨shaped.signature, shaped.locals, shaped.body⟩

/-- A function that is put together has the type it was declared with and the locals and the code of its body.
-/
theorem shaped_define (metadata : ModuleMetadata) (f : DeclaredFunc × Nat) (c : CodeEntry) :
    Shaped f.1.signature.funcType c.locals c.body (define metadata f c) ∧
      (define metadata f c).name = (nameOf? metadata f.2).getD f.1.id := by
  have locals : (c.locals.map Param.anonymous).map Param.valtype = c.locals := by
    simp [Function.comp_def, Param.anonymous]
  have shaped : Shaped f.1.signature.funcType c.locals c.body ⟨f.1.id, .inline f.1.signature,
      c.locals.map .anonymous, c.body, some ⟨c.size⟩⟩ := ⟨⟨_, rfl, rfl⟩, locals, rfl⟩
  exact shaped.applyNames metadata f.2

end WasmEngine.Binary
