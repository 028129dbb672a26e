import Mathlib.Data.List.Basic
import WasmEngine.Proofs.Typing.InstructionNames

/-!
# The types of the instructions on a type

The instruction set lists the type of each instruction by its byte.  The checker finds the same type
by the name (`Signatures.numeric?_eq_some_iff`): a name that has a type is the name of an
instruction in the spelling used here, and its family gives the listed type.
-/

namespace WasmEngine

namespace Opcode

/-- The type from which a conversion starts. -/
def conversionSource (byte : UInt8) : Valtype :=
  if byte ∈ [0xac, 0xad, 0xb2, 0xb3, 0xb7, 0xb8, 0xbe] then .i32
  else if byte ∈ [0xa7, 0xb4, 0xb5, 0xb9, 0xba, 0xbf] then .i64
  else if byte ∈ [0xa8, 0xa9, 0xae, 0xaf, 0xbb, 0xbc] then .f32
  else .f64

/-- Whether the byte is that of an operator of one operand that keeps its type. -/
def isUnary (byte : UInt8) : Prop :=
  (0x67 ≤ byte ∧ byte ≤ 0x69) ∨ (0x79 ≤ byte ∧ byte ≤ 0x7b) ∨ (0x8b ≤ byte ∧ byte ≤ 0x91) ∨
    (0x99 ≤ byte ∧ byte ≤ 0x9f)

instance (byte : UInt8) : Decidable (isUnary byte) := by unfold isUnary; infer_instance

/-- The listed type of an instruction on `t`: loads, stores, constants, tests, comparisons,
operators and conversions follow each other in the order of the bytes. -/
def typeOn (op : Opcode) (t : Valtype) : FuncType :=
  let b := op.byte
  if b ≤ 0x35 then ⟨[.i32], [t]⟩
  else if b ≤ 0x3e then ⟨[.i32, t], []⟩
  else if b ≤ 0x44 then ⟨[], [t]⟩
  else if b = 0x45 ∨ b = 0x50 then ⟨[t], [.i32]⟩
  else if b ≤ 0x66 then ⟨[t, t], [.i32]⟩
  else if isUnary b then ⟨[t], [t]⟩
  else if b ≤ 0xa6 then ⟨[t, t], [t]⟩
  else ⟨[conversionSource b], [t]⟩

end Opcode

namespace Text

/-- A text is cut at the first separator. -/
theorem cutChars?_append {c : Char} {before : List Char} (after : List Char) (absent : c ∉ before) :
    cutChars? c (before ++ c :: after) = some (before, after) := by
  induction before with
  | nil => simp [cutChars?]
  | cons d ds ih =>
    have different : d ≠ c := fun e => absent (e ▸ List.mem_cons_self)
    simp [cutChars?, different, ih fun h => absent (List.mem_cons_of_mem _ h)]

theorem pieces_ne_nil (c : Char) (s : List Char) : pieces c s ≠ [] := by
  cases s with
  | nil => simp [pieces]
  | cons d ds => unfold pieces; repeat' split <;> simp

/-- The pieces of a text, with the separators put back. -/
theorem intercalate_pieces (c : Char) (s : List Char) : [c].intercalate (pieces c s) = s := by
  induction s with
  | nil => simp [pieces]
  | cons d ds ih =>
    obtain ⟨p, ps, e⟩ := List.exists_cons_of_ne_nil (pieces_ne_nil c ds)
    rw [e] at ih
    by_cases h : d = c
    · simp [pieces, h, e, ih]
    · cases ps with
      | nil => simpa [pieces, h, e] using ih
      | cons q qs => simpa [pieces, h, e] using ih

/-- A text is its pieces with the separator between them. -/
theorem intercalate_splitBy (c : Char) (s : String) :
    [c].intercalate ((splitBy c s).map String.toList) = s.toList := by
  have read : String.toList ∘ String.ofList = id := funext fun _ => String.toList_ofList
  rw [splitBy, List.map_map, read, List.map_id, intercalate_pieces]

end Text

namespace Valtype

/-- The spellings of the types. -/
def names : List String := ["i32", "i64", "f32", "f64"]

/-- What is found by a name is listed with it. -/
theorem mem_names {s : String} (h : (ofName? s).isSome) : s ∈ names := by
  unfold ofName? at h
  split at h <;> simp [names] at h ⊢

end Valtype

namespace Opcode

/-- The operations that `normalizeOperation` changes: conversions in their later spelling. -/
def laterConversions : List String :=
  (signedConversions.flatMap fun base => Valtype.names.flatMap fun source =>
    [base ++ "_" ++ source ++ "_" ++ "s", base ++ "_" ++ source ++ "_" ++ "u"]) ++
  plainConversions.flatMap fun base => Valtype.names.map fun source => base ++ "_" ++ source

/-- The names that are rewritten are those of the later conversions. -/
theorem mem_laterConversions {s : String} (changed : normalizeOperation s ≠ s) :
    s ∈ laterConversions := by
  have whole := Text.intercalate_splitBy '_' s
  unfold normalizeOperation at changed
  split at changed
  · next base source sign pieces =>
    split at changed
    · next known =>
      simp only [Bool.and_eq_true, List.contains_iff_mem, Bool.or_eq_true, beq_iff_eq] at known
      obtain ⟨⟨base_known, source_known⟩, sign_known⟩ := known
      have spelled : s = base ++ "_" ++ source ++ "_" ++ sign := by
        rw [← String.toList_inj, ← whole, pieces]
        simp
      refine List.mem_append_left _ (List.mem_flatMap.2 ⟨base, base_known, ?_⟩)
      refine List.mem_flatMap.2 ⟨source, Valtype.mem_names source_known, ?_⟩
      rcases sign_known with rfl | rfl <;> simp [spelled]
    · exact absurd rfl changed
  · next base source pieces =>
    split at changed
    · next known =>
      simp only [Bool.and_eq_true, List.contains_iff_mem] at known
      have spelled : s = base ++ "_" ++ source := by
        rw [← String.toList_inj, ← whole, pieces]
        simp
      refine List.mem_append_right _ (List.mem_flatMap.2 ⟨base, known.1, ?_⟩)
      exact List.mem_map.2 ⟨source, Valtype.mem_names known.2, spelled.symm⟩
    · exact absurd rfl changed
  · exact absurd rfl changed

/-- The full name of an operation on a type, cut at its first point. -/
theorem cut_mnemonic (t : Valtype) (id : String) :
    Text.cut? '.' (t.name ++ "." ++ id) = some (t.name, id) := by
  have absent : '.' ∉ t.name.toList := by cases t <;> decide
  simp [Text.cut?, Text.cutChars?_append _ absent]

/-- A mnemonic is split into its type and its operation. -/
theorem splitMnemonic_mnemonic (t : Valtype) (id : String) :
    splitMnemonic (t.name ++ "." ++ id) = (some t, id) := by
  simp only [splitMnemonic, cut_mnemonic, Valtype.ofName?_name]

/-- Rewriting a mnemonic rewrites its operation. -/
theorem normalizeMnemonic_mnemonic (t : Valtype) (id : String) :
    normalizeMnemonic (t.name ++ "." ++ id) = t.name ++ "." ++ normalizeOperation id := by
  have head : (t.name ++ "." ++ id).toList.head? =
      some (if t = .i32 ∨ t = .i64 then 'i' else 'f') := by
    cases t <;> simp [Valtype.name]
  unfold normalizeMnemonic
  split
  all_goals first
    | (next e => rw [e] at head; cases t <;> simp at head)
    | simp only [cut_mnemonic]

/-- A mnemonic is found as its type and rewritten operation. -/
theorem ofMnemonic?_mnemonic (t : Valtype) (id : String) :
    ofMnemonic? (t.name ++ "." ++ id) = find? (some t) (normalizeOperation id) := by
  simp only [ofMnemonic?, normalizeMnemonic_mnemonic, splitMnemonic_mnemonic]

/-- What is found in the table is listed there under that type and name. -/
theorem find?_eq_some {object : Option Valtype} {name : String} {op : Opcode}
    (h : find? object name = some op) : op ∈ table ∧ op.object = object ∧ op.name = name := by
  refine ⟨List.mem_of_find?_eq_some h, ?_⟩
  simpa using List.find?_some h

end Opcode

namespace Signatures

/-- Whether a name belongs to a family does not depend on the type. -/
theorem ofFamily?_eq_none_iff (t u : Valtype) (name : String) :
    ofFamily? t name = none ↔ ofFamily? u name = none := by
  unfold ofFamily?
  split
  · simp
  · repeat' split
    all_goals simp

set_option maxRecDepth 4000 in
/-- The rows have the spelling used here.  The families have their listed types, and none of the later names of
conversions. -/
theorem ofFamily?_listed : (∀ s ∈ Opcode.laterConversions, ofFamily? .i32 s = none) ∧
    ∀ op ∈ Opcode.table, Opcode.normalizeOperation op.name = op.name ∧
      ∀ t, op.object = some t → ofFamily? t op.name = some (op.typeOn t) := by
  have plain : ∀ s ∈ Opcode.laterConversions, Text.isAscii s = true := by decide +kernel
  constructor
  · intro s listed
    simp only [ofFamily?, Text.cut?, Text.beginsWith, Text.toList_of_isAscii (plain s listed)]
    revert s
    decide +kernel
  · intro op listed
    simp only [Opcode.normalizeOperation, Text.splitBy, ofFamily?, Text.cut?, Text.beginsWith,
      Opcode.toList_name listed]
    revert op
    decide +kernel

/-- The type of a name is the listed type of the instruction of that name. -/
theorem numeric?_eq_some_iff {t : Valtype} {id : String} {type : FuncType} :
    numeric? t id = some type ↔
      ∃ op ∈ Opcode.table, op.object = some t ∧ op.name = id ∧ op.typeOn t = type := by
  unfold numeric?
  rw [Opcode.ofMnemonic?_mnemonic]
  constructor
  · intro h
    split at h
    · next known =>
      have unchanged : Opcode.normalizeOperation id = id := by
        by_contra changed
        have later := ofFamily?_listed.1 id (Opcode.mem_laterConversions changed)
        rw [(ofFamily?_eq_none_iff t .i32 id).2 later] at h
        exact Option.some_ne_none type h.symm
      obtain ⟨op, found⟩ := Option.isSome_iff_exists.1 known
      rw [unchanged] at found
      obtain ⟨member, object, name⟩ := Opcode.find?_eq_some found
      refine ⟨op, member, object, name, ?_⟩
      rw [← name, (ofFamily?_listed.2 op member).2 t object] at h
      exact Option.some.inj h
    · exact absurd h (by simp)
  · rintro ⟨op, member, object, rfl, rfl⟩
    obtain ⟨normal, typed⟩ := ofFamily?_listed.2 op member
    have known : (Opcode.find? (some t) op.name).isSome :=
      List.find?_isSome.2 ⟨op, member, by simp [object]⟩
    rw [normal, if_pos known, typed t object]

end Signatures

end WasmEngine
