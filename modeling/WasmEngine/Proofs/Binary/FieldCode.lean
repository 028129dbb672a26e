import WasmEngine.Binary.Sections
import WasmEngine.Proofs.Binary.Reading
import WasmEngine.Proofs.Syntax.Everywhere

/-!
# The code of a decoded module

Instructions are read by `expression` alone.  What holds of everything that it gives holds of all the
code of a decoded module (`code_of_decode`), and nothing else is refused for its nesting (`Codeless`).
What the readers of single instructions and of blocks ensure holds of all that is read (`gives_expression`).
-/

namespace WasmEngine

open Outcome

/-- A field that a decoder adds, whose instructions have a property. -/
def Node.CodeHas (q : List Node → Prop) : Node → Prop
  | .func _ _ _ body _ => q body
  | .global _ init _ => q init
  | .elem _ offset _ | .data _ offset _ => q offset
  | .typeDef _ | .moduleImport _ | .table _ | .memory _ | .start _ | .moduleExport _ => True
  | _ => False

namespace Binary

/-- An error about constructs that are nested too deep. -/
def DecodeErrorKind.isNesting : DecodeErrorKind → Bool
  | .nestingTooDeep _ => true
  | _ => false

variable {q : List Node → Prop}

namespace Decode

variable {α β : Type}

/-! ## Results -/

/-- What a step gives, if it gives anything, has a property. -/
def Gives (p : α → Prop) (m : DecodeM α) : Prop := ∀ d a d', m d = .ok a d' → p a

section Gives

variable {p : α → Prop} {q : β → Prop} {m : DecodeM α} {f : α → DecodeM β}

/-- What holds of the results of two computations in a row. -/
theorem Gives.bind (first : Gives p m) (rest : ∀ a, p a → Gives q (f a)) : Gives q (m >>= f) := by
  intro d b d' ends
  obtain ⟨a, e, here, there⟩ := run_bind_eq_ok_iff.1 ends
  exact rest a (first d a e here) e b d' there

/-- What is read first does not matter. -/
theorem Gives.then (rest : ∀ a, Gives q (f a)) : Gives q (m >>= f) := by
  have anything : Gives (fun _ => True) m := fun _ _ _ _ => trivial
  exact anything.bind fun a _ => rest a

theorem gives_pure {a : α} (now : p a) : Gives p (pure a) := by
  intro d b d' ends
  obtain ⟨rfl, -⟩ := run_pure_eq_ok_iff.1 ends
  exact now

theorem Gives.imp {p' : α → Prop} (gives : Gives p m) (imp : ∀ a, p a → p' a) : Gives p' m :=
  fun d a d' ends => imp a (gives d a d' ends)

theorem gives_failAt {offset : Nat} {kind : DecodeErrorKind} : Gives p (failAt offset kind) := by
  intro d a d' ends
  cases ends

end Gives

/-! ## Names -/

/-- A property of steps that reading names keeps: it holds of the steps that this is made of, and of one
after another. -/
structure AlongNames (P : {α : Type} → DecodeM α → Prop) : Prop where
  bind {α β : Type} {m : DecodeM α} {f : α → DecodeM β} (first : P m) (rest : ∀ a, P (f a)) : P (m >>= f)
  pure {α : Type} (a : α) : P (pure a)
  byte : P (read .byte)
  u32 : P (read .u32)
  name : P (read .name)
  skip (n : Nat) : P (read (.skip n))
  pos : P pos
  mismatch (offset : Nat) (what : String) (declared consumed : Nat) :
    P (failAt offset (.sizeMismatch what declared consumed) : DecodeM Unit)
  change (f : ModuleMetadata → ModuleMetadata) : P (modifyMetadata f)

namespace AlongNames

variable {P : {α : Type} → DecodeM α → Prop} (along : AlongNames P)
include along

/-- Along names a property passes to a step that is repeated. -/
theorem times {step : DecodeM α} (holds : P step) (n : Nat) : P (times step n) := by
  induction n with
  | zero => exact along.pure []
  | succ n ih => exact along.bind holds fun _ => along.bind ih fun _ => along.pure _

/-- Along names a property passes to a step for each number. -/
theorem forEach {step : Nat → DecodeM Unit} (holds : ∀ i, P (step i)) (i n : Nat) : P (forEach step i n) := by
  induction n generalizing i with
  | zero => exact along.pure ()
  | succ n ih => exact along.bind (holds i) fun _ => ih (i + 1)

theorem expectPosition (stop : Nat) (what : String) : P (expectPosition stop what) := by
  refine along.bind along.pos fun here => ?_
  split
  · exact along.mismatch _ _ _ _
  · exact along.pure ()

theorem functionName : P functionName :=
  along.bind along.u32 fun _ => along.bind along.name fun _ => along.pure _

theorem localNames : P localNames :=
  along.bind along.u32 fun _ => along.bind along.u32 fun count => along.times
    (along.bind along.u32 fun _ => along.bind along.name fun _ => along.pure _) count

/-- Along names a property holds of each part of a name section. -/
theorem nameSubsection : P nameSubsection := by
  refine along.bind along.byte fun id => along.bind along.u32 fun size => along.bind along.pos fun here => ?_
  have last := along.expectPosition (here + size) "name subsection"
  dsimp only
  split_ifs
  · exact along.bind along.name fun _ => along.bind (along.change _) fun _ => last
  · exact along.bind along.u32 fun count => along.bind
      (along.forEach (fun _ => along.bind along.functionName fun _ => along.change _) 0 count) fun _ => last
  · exact along.bind along.u32 fun count => along.bind
      (along.forEach (fun _ => along.bind along.localNames fun _ => along.change _) 0 count) fun _ => last
  · exact along.bind (along.bind along.pos fun _ => along.skip _) fun _ => last

/-- Along names a property holds of a whole name section. -/
theorem nameSubsections (stop fuel : Nat) : P (nameSubsections stop fuel) := by
  induction fuel with
  | zero => exact along.pure ()
  | succ fuel ih =>
    refine along.bind along.pos fun here => ?_
    split
    · exact along.bind along.nameSubsection fun _ => ih
    · exact along.pure ()

end AlongNames

/-! ## Steps without code -/

/-- The code that was read so far has a property. -/
structure CodeHolds (q : List Node → Prop) (d : Decoder) : Prop where
  fields : ∀ field ∈ d.fields, field.CodeHas q
  exports : ∀ field ∈ d.exports, field.CodeHas q
  code : ∀ entry ∈ d.code, q entry.body

/-- A step after which what was read still has a property. -/
def Keeps (q : List Node → Prop) (m : DecodeM α) : Prop :=
  ∀ d a d', m d = .ok a d' → CodeHolds q d → CodeHolds q d'

/-- A step that is not refused for nesting. -/
def Sparing (m : DecodeM α) : Prop := ∀ d x d', m d = .error x d' → x.kind.isNesting = false

/-- A step that reads no code: it adds none, and it is not refused for nesting. -/
structure Codeless (m : DecodeM α) : Prop where
  keeps : ∀ q, Keeps q m
  spares : Sparing m

section Keeps

variable {m : DecodeM α} {f : α → DecodeM β}

/-- Two computations in a row that spare the code. -/
theorem Sparing.bind (first : Sparing m) (rest : ∀ a, Sparing (f a)) : Sparing (m >>= f) := by
  intro d x d' fails
  cases here : m d with
  | ok a e =>
    rw [bind_ok here] at fails
    exact rest a e x d' fails
  | error y e =>
    rw [bind_error here] at fails
    cases fails
    exact first d x d' here

/-- A computation that spares the code does not run out of nesting. -/
theorem Sparing.never {d d' : Decoder} {x : DecodeError} (sparing : Sparing m) (fails : m d = .error x d')
    (nesting : x.kind.isNesting = true) : False := by
  rw [sparing d x d' fails] at nesting
  cases nesting

theorem sparing_modify {change : Decoder → Decoder} : Sparing (modify change) := by
  intro d x d' fails
  cases fails

/-- A computation keeps what is known of the code if its continuation does for the results that there can be. -/
theorem Keeps.bind_gives {p : α → Prop} (first : Keeps q m) (gives : Gives p m)
    (rest : ∀ a, p a → Keeps q (f a)) : Keeps q (m >>= f) := by
  intro d b d' ends before
  obtain ⟨a, e, here, there⟩ := run_bind_eq_ok_iff.1 ends
  exact rest a (gives d a e here) e b d' there (first d a e here before)

theorem Keeps.bind (first : Keeps q m) (rest : ∀ a, Keeps q (f a)) : Keeps q (m >>= f) := by
  have anything : Gives (fun _ => True) m := fun _ _ _ _ => trivial
  exact first.bind_gives anything fun a _ => rest a

theorem keeps_modify {change : Decoder → Decoder} (keeps : ∀ d, CodeHolds q d → CodeHolds q (change d)) :
    Keeps q (modify change) := by
  intro d a d' ends before
  cases ends
  exact keeps d before

theorem keeps_addField {field : Node} (has : field.CodeHas q) : Keeps q (addField field) :=
  keeps_modify fun _ before =>
    ⟨List.forall_mem_append.2 ⟨before.fields, List.forall_mem_singleton.2 has⟩, before.exports, before.code⟩

/-- Two computations in a row that have no code. -/
theorem Codeless.bind (first : Codeless m) (rest : ∀ a, Codeless (f a)) : Codeless (m >>= f) where
  keeps q := (first.keeps q).bind fun a => (rest a).keeps q
  spares := first.spares.bind fun a => (rest a).spares

/-- What follows a step without code. -/
theorem Codeless.bind_keeps (first : Codeless m) (rest : ∀ a, Keeps q (f a)) : Keeps q (m >>= f) :=
  (first.keeps q).bind rest

end Keeps

theorem codeless_pure (a : α) : Codeless (pure a : DecodeM α) where
  keeps _ d b d' ends before := by
    obtain ⟨-, rfl⟩ := run_pure_eq_ok_iff.1 ends
    exact before
  spares _ _ _ fails := by cases fails

theorem codeless_get : Codeless (MonadStateOf.get : DecodeM Decoder) where
  keeps _ d b d' ends before := by
    cases ends
    exact before
  spares _ _ _ fails := by cases fails

theorem codeless_failAt {offset : Nat} {kind : DecodeErrorKind} (other : kind.isNesting = false) :
    Codeless (failAt offset kind : DecodeM α) where
  keeps _ _ _ _ ends _ := by cases ends
  spares _ _ _ fails := by
    cases fails
    exact other

/-- A change of a part that has no code. -/
theorem codeless_modify {change : Decoder → Decoder} (fields : ∀ d, (change d).fields = d.fields)
    (exports : ∀ d, (change d).exports = d.exports) (code : ∀ d, (change d).code = d.code) :
    Codeless (modify change) where
  keeps _ := keeps_modify fun d before => ⟨fields d ▸ before.fields, exports d ▸ before.exports,
    code d ▸ before.code⟩
  spares := sparing_modify

theorem codeless_addField {field : Node} (has : ∀ q, field.CodeHas q) : Codeless (addField field) where
  keeps q := keeps_addField (has q)
  spares := sparing_modify

theorem codeless_fresh (stem : String) : Codeless (fresh stem) where
  keeps _ _ _ _ ends before := by
    cases ends
    exact ⟨before.fields, before.exports, before.code⟩
  spares _ _ _ fails := by cases fails

theorem codeless_note (what : String) : Codeless (note what) := by
  refine codeless_modify (fun d => ?_) (fun d => ?_) fun d => ?_
  · split <;> rfl
  · split <;> rfl
  · split <;> rfl

theorem codeless_pos : Codeless pos := codeless_get.bind fun _ => codeless_pure _

theorem codeless_unless {c : Prop} [Decidable c] {refuse : DecodeM Unit} {f : Unit → DecodeM α}
    (refuses : Codeless refuse) (rest : ∀ u, Codeless (f u)) :
    Codeless (if c then refuse >>= f else f ()) := by
  split
  · exact refuses.bind rest
  · exact rest ()

/-! ## Single reads -/

/-- A read that is not refused for nesting. -/
def Spares (r : Read α) : Prop := ∀ s x s', r s = .error x s' → x.kind.isNesting = false

theorem codeless_read {r : Read α} (spares : Spares r) : Codeless (read r) where
  keeps _ d a d' ends before := by
    unfold read at ends
    split at ends
    · cases ends
      exact ⟨before.fields, before.exports, before.code⟩
    · cases ends
  spares d x d' fails := by
    unfold read at fails
    split at fails
    · cases fails
    · next step =>
      cases fails
      exact spares _ _ _ step

theorem spares_fail {kind : DecodeErrorKind} (other : kind.isNesting = false) :
    Spares (.fail kind : Read α) := by
  intro s x s' fails
  cases fails
  exact other

theorem spares_byte : Spares .byte := by
  intro s x s' fails
  unfold Read.byte at fails
  split at fails
  · cases fails
    rfl
  · cases fails

theorem spares_bytes (n : Nat) : Spares (.bytes n) := by
  intro s x s' fails
  unfold Read.bytes at fails
  split at fails
  · cases fails
  · cases fails
    rfl

theorem spares_skip (n : Nat) : Spares (.skip n) := by
  intro s x s' fails
  unfold Read.skip at fails
  split at fails
  · cases fails
  · cases fails
    rfl

theorem spares_word (width : Nat) : Spares (.word width) := by
  intro s x s' fails
  unfold Read.word at fails
  split at fails
  · cases fails
  · cases fails
    rfl

theorem spares_leb (decode : List UInt8 → Except Leb128.Error (α × Nat)) : Spares (Read.leb decode) := by
  intro s x s' fails
  unfold Read.leb at fails
  split at fails
  · cases fails
  · cases fails
    rfl
  · cases fails
    rfl

theorem spares_u32 : Spares .u32 := spares_leb _

theorem spares_name : Spares .name := by
  intro s x s' fails
  unfold Read.name at fails
  split at fails
  · next counted =>
    cases fails
    exact spares_u32 _ _ _ counted
  · split at fails
    · next taken =>
      cases fails
      exact spares_bytes _ _ _ _ taken
    · split at fails
      · cases fails
      · cases fails
        rfl

theorem codeless_byte : Codeless (read .byte) := codeless_read spares_byte

theorem codeless_u32 : Codeless (read .u32) := codeless_read spares_u32

theorem codeless_name : Codeless (read .name) := codeless_read spares_name

theorem codeless_skipTo (stop : Nat) : Codeless (skipTo stop) :=
  codeless_pos.bind fun _ => codeless_read (spares_skip _)

/-- Reading names reads no code. -/
theorem alongNames_codeless : AlongNames Codeless where
  bind := Codeless.bind
  pure := codeless_pure
  byte := codeless_byte
  u32 := codeless_u32
  name := codeless_name
  skip n := codeless_read (spares_skip n)
  pos := codeless_pos
  mismatch _ _ _ _ := codeless_failAt rfl
  change _ := codeless_modify (fun _ => rfl) (fun _ => rfl) fun _ => rfl

theorem codeless_valtype : Codeless valtype := by
  refine codeless_pos.bind fun start => codeless_byte.bind fun byte => ?_
  split
  · exact codeless_pure _
  · exact codeless_failAt rfl

theorem codeless_valtypes : Codeless valtypes :=
  codeless_u32.bind fun count => alongNames_codeless.times codeless_valtype count

theorem codeless_typeIndex : Codeless typeIndex := by
  refine codeless_pos.bind fun start => codeless_u32.bind fun index =>
    (codeless_note _).bind fun _ => codeless_get.bind fun d => ?_
  split
  · exact codeless_pure _
  · exact codeless_failAt rfl

theorem codeless_limits : Codeless limits := by
  refine codeless_pos.bind fun start => codeless_byte.bind fun flag => ?_
  split
  · exact codeless_u32.bind fun min => codeless_pure _
  · split
    · exact codeless_u32.bind fun min => codeless_u32.bind fun max => codeless_pure _
    · exact codeless_failAt rfl

theorem codeless_globalType : Codeless globalType := by
  refine codeless_valtype.bind fun type => codeless_pos.bind fun start => codeless_byte.bind fun flag => ?_
  split
  · exact codeless_pure _
  · exact codeless_failAt rfl

theorem codeless_blockType : Codeless blockType := by
  refine codeless_pos.bind fun start => codeless_byte.bind fun byte => ?_
  split
  · exact codeless_pure _
  · split
    · exact codeless_pure _
    · exact codeless_failAt rfl

theorem codeless_zeroFlag : Codeless zeroFlag := by
  refine codeless_pos.bind fun start => codeless_u32.bind fun flag => ?_
  split
  · exact codeless_failAt rfl
  · exact codeless_pure ()

theorem codeless_label (stem : String) : Codeless (label stem) :=
  (codeless_fresh stem).bind fun _ => codeless_pure _

theorem codeless_requireFinish (t : Terminator) : Codeless (requireFinish t) := by
  unfold requireFinish
  split
  · exact codeless_pos.bind fun _ => codeless_failAt rfl
  · exact codeless_pure ()

theorem codeless_simple (op : Opcode) : Codeless (simple op) := by
  unfold simple
  split
  · exact codeless_pure _
  · exact codeless_pure _
  · refine codeless_u32.bind fun index => ?_
    split
    · exact codeless_pure _
    · exact codeless_pure _
  · exact codeless_u32.bind fun count => (alongNames_codeless.times codeless_u32 _).bind fun labels => codeless_pure _
  · refine codeless_pos.bind fun start => codeless_u32.bind fun index => codeless_get.bind fun d => ?_
    split
    · exact codeless_failAt rfl
    · exact codeless_zeroFlag.bind fun _ => codeless_pure _
  · exact codeless_u32.bind fun align => codeless_u32.bind fun offset => codeless_pure _
  · exact codeless_zeroFlag.bind fun _ => codeless_pure _
  · exact (codeless_read (spares_leb _)).bind fun value => codeless_pure _
  · exact (codeless_read (spares_leb _)).bind fun value => codeless_pure _
  · exact (codeless_read (spares_word _)).bind fun bits => codeless_pure _
  · exact (codeless_read (spares_word _)).bind fun bits => codeless_pure _

/-! ## Entries without code -/

theorem codeless_typeEntry (i : Nat) : Codeless (typeEntry i) :=
  codeless_pos.bind fun _ => codeless_byte.bind fun _ => codeless_unless (codeless_failAt rfl) fun _ =>
    (codeless_note _).bind fun _ => codeless_valtypes.bind fun _ => codeless_valtypes.bind fun _ =>
      Codeless.bind (codeless_modify (fun _ => rfl) (fun _ => rfl) fun _ => rfl) fun _ =>
        codeless_addField fun _ => trivial

theorem codeless_tableType : Codeless tableType :=
  codeless_get.bind fun _ => codeless_pos.bind fun _ => codeless_byte.bind fun _ =>
    codeless_unless (codeless_failAt rfl) fun _ => codeless_limits.bind fun _ =>
      (codeless_fresh _).bind fun _ =>
        Codeless.bind (codeless_modify (fun _ => rfl) (fun _ => rfl) fun _ => rfl) fun _ => codeless_pure _

theorem codeless_importDescr (name : String) : Codeless (importDescr name) := by
  refine codeless_pos.bind fun start => codeless_byte.bind fun kind => ?_
  split
  · exact codeless_typeIndex.bind fun signature =>
      Codeless.bind (codeless_modify (fun _ => rfl) (fun _ => rfl) fun _ => rfl) fun _ => codeless_pure _
  · exact codeless_tableType.bind fun table => codeless_pure _
  · exact codeless_limits.bind fun limits =>
      Codeless.bind (codeless_modify (fun _ => rfl) (fun _ => rfl) fun _ => rfl) fun _ => codeless_pure _
  · exact codeless_globalType.bind fun type =>
      Codeless.bind (codeless_modify (fun _ => rfl) (fun _ => rfl) fun _ => rfl) fun _ => codeless_pure _
  · exact codeless_failAt rfl

theorem codeless_importEntry (i : Nat) : Codeless (importEntry i) :=
  codeless_name.bind fun _ => codeless_name.bind fun _ => (codeless_note _).bind fun _ =>
    (codeless_importDescr _).bind fun _ => codeless_addField fun _ => trivial

theorem codeless_functionEntry (i : Nat) : Codeless (functionEntry i) :=
  codeless_typeIndex.bind fun _ => (codeless_fresh _).bind fun _ =>
    codeless_modify (fun _ => rfl) (fun _ => rfl) fun _ => rfl

theorem codeless_tableEntry (i : Nat) : Codeless (tableEntry i) :=
  codeless_tableType.bind fun _ => codeless_addField fun _ => trivial

theorem codeless_memoryEntry (i : Nat) : Codeless (memoryEntry i) :=
  codeless_limits.bind fun _ =>
    Codeless.bind (codeless_modify (fun _ => rfl) (fun _ => rfl) fun _ => rfl) fun _ =>
      codeless_addField fun _ => trivial

theorem codeless_startSection : Codeless startSection :=
  codeless_u32.bind fun _ => (codeless_note _).bind fun _ => codeless_addField fun _ => trivial

theorem codeless_addExport (e : ModuleExport) :
    Codeless (modify fun d => { d with exports := d.exports ++ [.moduleExport e] }) where
  keeps _ := keeps_modify fun _ before =>
    ⟨before.fields, List.forall_mem_append.2 ⟨before.exports, List.forall_mem_singleton.2 trivial⟩, before.code⟩
  spares := sparing_modify

theorem codeless_exportEntry (i : Nat) : Codeless (exportEntry i) := by
  refine codeless_name.bind fun name => codeless_pos.bind fun start => codeless_byte.bind fun byte =>
    codeless_u32.bind fun index => (codeless_note _).bind fun _ => ?_
  split
  · exact codeless_failAt rfl
  · exact codeless_get.bind fun d => codeless_unless (codeless_failAt rfl) fun _ => codeless_addExport _

theorem codeless_localRuns (total n : Nat) : Codeless (localRuns total n) := by
  induction n generalizing total with
  | zero => exact codeless_pure []
  | succ n ih =>
    exact codeless_u32.bind fun count => codeless_unless (codeless_read (spares_fail rfl)) fun _ =>
      codeless_valtype.bind fun type => (ih _).bind fun rest => codeless_pure _

/-! ## Sections without code -/

theorem codeless_customSection (stop : Nat) : Codeless (customSection stop) := by
  refine codeless_name.bind fun name => codeless_get.bind fun d => ?_
  split
  · exact codeless_get.bind fun _ => alongNames_codeless.nameSubsections stop _
  · exact (codeless_note _).bind fun _ => codeless_skipTo stop

theorem codeless_sectionId : Codeless sectionId := by
  refine codeless_pos.bind fun start => codeless_byte.bind fun byte => ?_
  split
  · exact codeless_pure _
  · exact codeless_get.bind fun d => codeless_unless (codeless_failAt rfl) fun _ =>
      Codeless.bind (codeless_modify (fun _ => rfl) (fun _ => rfl) fun _ => rfl) fun _ => codeless_pure _
  · exact codeless_failAt rfl

theorem codeless_header : Codeless header :=
  (codeless_read (spares_bytes 4)).bind fun _ => codeless_unless (codeless_failAt rfl) fun _ =>
    (codeless_note _).bind fun _ => (codeless_read (spares_bytes 4)).bind fun _ =>
      codeless_unless (codeless_failAt rfl) fun _ => codeless_note _

/-! ## Entries with code -/

section Code

theorem keeps_forEach {step : Nat → DecodeM Unit} (keeps : ∀ i, Keeps q (step i)) (i n : Nat) :
    Keeps q (forEach step i n) := by
  induction n generalizing i with
  | zero => exact (codeless_pure ()).keeps q
  | succ n ih => exact (keeps i).bind fun _ => ih (i + 1)

variable (reads : Gives q expression)
include reads

theorem keeps_expression_bind {f : List Node → DecodeM β} (rest : ∀ nodes, q nodes → Keeps q (f nodes)) :
    Keeps q (expression >>= f) := by
  refine Keeps.bind_gives (fun d nodes d' ends before => ?_) reads rest
  obtain ⟨_, _, _, _, rfl, -⟩ := reading_expression d nodes d' ends
  exact ⟨before.fields, before.exports, before.code⟩

theorem keeps_globalEntry (i : Nat) : Keeps q (globalEntry i) := by
  refine codeless_globalType.bind_keeps fun type => keeps_expression_bind reads fun init has => ?_
  have counted : Codeless (modify fun d => { d with globals := d.globals + 1 }) :=
    codeless_modify (fun _ => rfl) (fun _ => rfl) fun _ => rfl
  exact counted.bind_keeps fun _ => keeps_addField has

theorem keeps_elementEntry (i : Nat) : Keeps q (elementEntry i) := by
  refine codeless_u32.bind_keeps fun target => keeps_expression_bind reads fun offset has => ?_
  refine codeless_u32.bind_keeps fun count => (alongNames_codeless.times codeless_u32 _).bind_keeps fun _ => ?_
  exact keeps_addField has

theorem keeps_codeEntry (i : Nat) : Keeps q (codeEntry i) := by
  refine codeless_u32.bind_keeps fun size => codeless_pos.bind_keeps fun start =>
    (codeless_note _).bind_keeps fun _ => codeless_u32.bind_keeps fun runs =>
      (codeless_localRuns 0 runs).bind_keeps fun locals => keeps_expression_bind reads fun body has => ?_
  refine (alongNames_codeless.expectPosition _ _).bind_keeps fun _ => keeps_modify fun d before => ?_
  exact ⟨before.fields, before.exports, List.forall_mem_append.2 ⟨before.code, List.forall_mem_singleton.2 has⟩⟩

theorem keeps_dataEntry (i : Nat) : Keeps q (dataEntry i) := by
  refine codeless_u32.bind_keeps fun target => codeless_pos.bind_keeps fun start =>
    keeps_expression_bind reads fun offset has => ?_
  have rest : Keeps q (do
      let count ← read .u32
      let values ← read (.bytes count)
      note s!"data segment ({count} bytes)"
      addField (.data (.ofNat target) offset values)) := by
    refine codeless_u32.bind_keeps fun count => (codeless_read (spares_bytes count)).bind_keeps fun values => ?_
    exact (codeless_note _).bind_keeps fun _ => keeps_addField has
  dsimp only
  split
  · exact (codeless_failAt rfl).bind_keeps fun _ => rest
  · exact rest

theorem keeps_vectorSection (id : SectionId) (count stop : Nat) : Keeps q (vectorSection id count stop) := by
  have codeless {step : Nat → DecodeM Unit} (each : ∀ i, Codeless (step i)) : Keeps q (forEach step 0 count) :=
    (alongNames_codeless.forEach each 0 count).keeps q
  refine codeless_get.bind_keeps fun d => ?_
  cases id with
  | type => exact codeless codeless_typeEntry
  | imports => exact codeless codeless_importEntry
  | function => exact codeless codeless_functionEntry
  | table => exact codeless codeless_tableEntry
  | memory => exact codeless codeless_memoryEntry
  | global => exact keeps_forEach (keeps_globalEntry reads) 0 count
  | exports => exact codeless codeless_exportEntry
  | element => exact keeps_forEach (keeps_elementEntry reads) 0 count
  | code =>
    dsimp only
    split
    · exact (codeless_skipTo stop).keeps q
    · exact keeps_forEach (keeps_codeEntry reads) 0 count
  | data =>
    dsimp only
    split
    · exact (codeless_skipTo stop).keeps q
    · exact keeps_forEach (keeps_dataEntry reads) 0 count
  | custom => exact (codeless_pure ()).keeps q
  | start => exact (codeless_pure ()).keeps q

theorem keeps_sectionBody (id : SectionId) (stop : Nat) : Keeps q (sectionBody id stop) := by
  have vector : Keeps q (do
      let count ← read .u32
      note s!"{count} entries"
      vectorSection id count stop
      pure count) := by
    refine codeless_u32.bind_keeps fun count => (codeless_note _).bind_keeps fun _ => ?_
    exact (keeps_vectorSection reads id count stop).bind fun _ => (codeless_pure count).keeps q
  cases id with
  | custom => exact ((codeless_customSection stop).bind fun _ => codeless_pure 0).keeps q
  | start => exact (codeless_startSection.bind fun _ => codeless_pure 0).keeps q
  | _ => exact vector

theorem keeps_readSection : Keeps q readSection := by
  refine codeless_pos.bind_keeps fun start => codeless_sectionId.bind_keeps fun id =>
    codeless_u32.bind_keeps fun size => codeless_pos.bind_keeps fun bodyStart =>
      codeless_get.bind_keeps fun d => ?_
  have rest : Keeps q (do
      note s!"section {id.name}"
      let count ← sectionBody id (bodyStart + size)
      expectPosition (bodyStart + size) "section"
      modifyMetadata fun m =>
        { m with sections := m.sections ++ [⟨id.name, start, .ofInt size, .ofInt count⟩] }) := by
    refine (codeless_note _).bind_keeps fun _ => (keeps_sectionBody reads id _).bind fun count => ?_
    exact ((alongNames_codeless.expectPosition _ _).bind fun _ => alongNames_codeless.change _).keeps q
  dsimp only
  split
  · exact (codeless_read (spares_fail rfl)).bind_keeps fun _ => rest
  · exact rest

theorem keeps_readSections (fuel : Nat) : Keeps q (readSections fuel) := by
  induction fuel with
  | zero => exact (codeless_pure ()).keeps q
  | succ fuel ih =>
    refine codeless_get.bind_keeps fun d => ?_
    split
    · exact (keeps_readSection reads).bind fun _ => ih
    · exact (codeless_pure ()).keeps q

end Code

/-! ## Modules -/

/-- A name for a local is none of the code. -/
theorem nameSlot_body (f : Func) (name : LocalName) : (nameSlot f name).body = f.body := by
  unfold nameSlot
  split
  · split <;> rfl
  · rfl

/-- Names are none of the code. -/
theorem applyNames_body (metadata : ModuleMetadata) (index : Nat) (f : Func) :
    (applyNames metadata index f).body = f.body := by
  have slots (names : List LocalName) (f : Func) : (names.foldl nameSlot f).body = f.body := by
    induction names generalizing f with
    | nil => rfl
    | cons name names ih => exact (ih _).trans (nameSlot_body f name)
  unfold applyNames
  rw [slots]
  split <;> rfl

/-- The functions of a module have the bodies that were read, or none where these are passed over. -/
theorem code_of_assemble {d : Decoder} {index : Nat} {funcs : List DeclaredFunc} {code : List CodeEntry}
    {nodes : List Node} (empty : q []) (bodies : ∀ entry ∈ code, q entry.body)
    (assembled : assemble d index funcs code = .ok nodes) : ∀ node ∈ nodes, node.CodeHas q := by
  have named {f : Func} (body : q f.body) (index : Nat) : (applyNames d.metadata index f).toNode.CodeHas q := by
    show q (applyNames d.metadata index f).body
    rwa [applyNames_body]
  induction funcs generalizing index code nodes with
  | nil =>
    cases assembled
    exact nofun
  | cons f funcs ih =>
    unfold assemble at assembled
    split at assembled
    · exact ih bodies assembled
    · split at assembled
      · obtain ⟨rest, others, assembled⟩ := bind_eq_ok_iff.1 assembled
        cases assembled
        exact List.forall_mem_cons.2 ⟨named empty index, ih bodies others⟩
      · split at assembled
        · cases assembled
        · obtain ⟨rest, others, assembled⟩ := bind_eq_ok_iff.1 assembled
          obtain ⟨first, later⟩ := List.forall_mem_cons.1 bodies
          cases assembled
          exact List.forall_mem_cons.2 ⟨named first index, ih later others⟩

end Decode

/-- What holds of all that is read as an expression, and of no instructions at all, holds of the code in every
field of a decoded module. -/
theorem code_of_decode {options : DecoderOptions} {bytes : List UInt8} {p : Program}
    (reads : Decode.Gives q Decode.expression) (empty : q []) (decoded : decode options bytes = .ok p) :
    ∃ fields metadata, p = ⟨[.module none fields (some metadata)]⟩ ∧ ∀ field ∈ fields, field.CodeHas q := by
  have start : Decode.CodeHolds q (.start options bytes) := ⟨nofun, nofun, nofun⟩
  unfold decode decodeWithTrace at decoded
  split at decoded
  · next program d ends =>
    cases decoded
    obtain ⟨_, e, headed, ends⟩ := run_bind_eq_ok_iff.1 ends
    obtain ⟨_, _, got, ends⟩ := run_bind_eq_ok_iff.1 ends
    cases got
    obtain ⟨_, last, sections, ends⟩ := run_bind_eq_ok_iff.1 ends
    obtain ⟨_, _, got, ends⟩ := run_bind_eq_ok_iff.1 ends
    cases got
    have holds := Decode.keeps_readSections reads _ _ _ _ sections
      (Decode.codeless_header.keeps q _ _ _ headed start)
    cases finished : Decode.finish last with
    | error e =>
      simp only [finished] at ends
      cases ends
    | ok program =>
      simp only [finished] at ends
      cases ends
      obtain ⟨funcs, assembled, finished⟩ := bind_eq_ok_iff.1 finished
      cases finished
      have bodies := Decode.code_of_assemble empty holds.code assembled
      refine ⟨_, _, rfl, ?_⟩
      exact List.forall_mem_append.2 ⟨List.forall_mem_append.2 ⟨holds.fields, bodies⟩, holds.exports⟩
  · cases decoded

end Binary

end WasmEngine

/-! ## Code is read piece by piece -/

namespace WasmEngine.Binary.Decode

/-- A property of instructions inside `depth` blocks that holds of what is read if it holds of its parts. -/
structure Closed (code : Nat → List Node → Prop) : Prop where
  nil : ∀ depth, code depth []
  cons : ∀ {depth : Nat} {node : Node} {nodes : List Node}, code depth [node] → code depth nodes →
    code depth (node :: nodes)
  simple : ∀ {depth : Nat} {op : Opcode}, op ∈ Opcode.table → op.immediate ≠ .block →
    Gives (fun node => code depth [node]) (simple op)
  block : ∀ {depth : Nat} {body : List Node} (label : Identifier) (result : Option Valtype),
    depth < maxNesting → code (depth + 1) body → code depth [.block label body result]
  loop : ∀ {depth : Nat} {body : List Node} (label : Identifier) (result : Option Valtype),
    depth < maxNesting → code (depth + 1) body → code depth [.loop label result body]
  ifElse : ∀ {depth : Nat} {consequent alternate : List Node} (label : Identifier)
    (result : Option Valtype), depth < maxNesting → code (depth + 1) consequent →
      code (depth + 1) alternate → code depth [.ifElse label result consequent alternate]

variable {code : Nat → List Node → Prop} (closed_ : Closed code)
include closed_

section Blocks

variable {fuel : Nat} (ih : ∀ depth, Gives (fun r => code depth r.1) (instructions fuel depth))
include ih

omit closed_ in
theorem gives_closed (depth : Nat) : Gives (code depth) (closed fuel depth) :=
  (ih depth).bind fun _ body => Gives.then fun _ => gives_pure body

theorem gives_conditional {depth : Nat} (nested : depth < maxNesting) (result : Option Valtype) :
    Gives (fun node => code depth [node]) (conditional fuel depth result) := by
  refine Gives.then fun label => (ih _).bind fun first consequent => ?_
  have alternative : Gives (code (depth + 1)) (alternative fuel depth first.2) := by
    unfold alternative
    split
    · exact gives_closed ih _
    · exact gives_pure (closed_.nil _)
  exact alternative.bind fun alternate there => gives_pure (closed_.ifElse label result nested consequent there)

theorem gives_enclosed {depth : Nat} (nested : depth < maxNesting) (byte : UInt8) (result : Option Valtype) :
    Gives (fun node => code depth [node]) (enclosed fuel depth byte result) := by
  refine (gives_closed ih _).bind fun body inside => ?_
  split
  · exact Gives.then fun label => gives_pure (closed_.loop label result nested inside)
  · exact Gives.then fun label => gives_pure (closed_.block label result nested inside)

theorem gives_instruction (depth start : Nat) (byte : UInt8) {op : Opcode} (listed : op ∈ Opcode.table) :
    Gives (fun node => code depth [node]) (instruction fuel depth start byte op) := by
  unfold instruction
  split
  · by_cases full : maxNesting ≤ depth
    · simp only [structured, if_pos full]
      intro d node d' ends
      cases ends
    · have nested : depth < maxNesting := by omega
      simp only [structured, if_neg full]
      refine Gives.then fun result => ?_
      split
      · exact gives_conditional closed_ ih nested result
      · exact gives_enclosed closed_ ih nested byte result
  · next notBlock => exact closed_.simple listed notBlock

end Blocks

/-- The instructions of a sequence have the property, whatever fuel there is. -/
theorem gives_instructions (fuel depth : Nat) : Gives (fun r => code depth r.1) (instructions fuel depth) := by
  induction fuel generalizing depth with
  | zero =>
    intro d a d' ends
    cases ends
  | succ fuel ih =>
    rw [instructions_succ]
    refine Gives.then fun start => Gives.then fun byte => ?_
    split
    · exact gives_failAt
    · next op found =>
      refine Gives.then fun _ => ?_
      split
      · exact gives_pure (closed_.nil depth)
      · split
        · exact gives_pure (closed_.nil depth)
        · have listed := Opcode.mem_of_ofByte? found
          exact (gives_instruction closed_ ih depth start byte listed).bind fun node first =>
            (ih depth).bind fun r rest => gives_pure (closed_.cons first rest)

theorem gives_expression : Gives (code 0) expression :=
  Gives.then fun _ => gives_closed (gives_instructions closed_ _) 0

end WasmEngine.Binary.Decode
