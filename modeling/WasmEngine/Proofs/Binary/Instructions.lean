import WasmEngine.Binary.Layout
import WasmEngine.Proofs.Binary.Spelling
import WasmEngine.Proofs.Bytes.Denotation
import WasmEngine.Proofs.Syntax.Everywhere
import WasmEngine.Proofs.Typing.ListedTypes
import WasmEngine.Syntax.Node

/-!
# Instructions are spelled again

An instruction is found by its byte and by its name.  Instructions that were decoded are encoded in no more
bytes than they took, and those bytes are decoded to the same instructions up to the names of labels
(`takes_instructions`).
-/

namespace WasmEngine

namespace Opcode

set_option maxRecDepth 4000 in
/-- The rows are in the order of their bytes. -/
theorem table_ordered : table.IsChain fun op op' => op.byte < op'.byte := by
  decide +kernel

set_option maxRecDepth 4000 in
/-- The rows with a form of their own have the bytes of the layout, and only these have them. -/
theorem table_checked : ∀ op ∈ table,
    ((op.object.isNone && op.name == "end") = true → op.byte = Binary.endByte) ∧
    (op.byte = Binary.endByte → op.object = none ∧ op.name = "end") ∧
    (op.byte = Binary.elseByte → op.object = none ∧ op.name = "else") ∧
    (op.immediate ≠ .index → (op.name == "call") = false) ∧
    ((op.name == "call") = true → op.byte = Binary.callByte) ∧
    (op.immediate = .block →
      op.byte = Binary.ifByte ∨ op.byte = Binary.loopByte ∨ op.byte = Binary.blockByte) ∧
    (op.immediate = .callIndirect → op.byte = Binary.callIndirectByte) := by
  decide +kernel

/-- The table is in the order of the bytes, so that no byte stands for two instructions. -/
theorem ofByte?_byte {op : Opcode} (listed : op ∈ table) : ofByte? op.byte = some op := by
  have ordered : table.Pairwise fun op op' => op.byte < op'.byte :=
    List.isChain_iff_pairwise.1 table_ordered
  unfold ofByte?
  generalize table = ops at *
  induction ops with
  | nil => cases listed
  | cons first ops ih =>
    obtain ⟨before, ordered⟩ := List.pairwise_cons.1 ordered
    obtain rfl | later := List.mem_cons.1 listed
    · exact List.find?_cons_of_pos (beq_self_eq_true _)
    · have less := before op later
      have differs : (first.byte == op.byte) = false := beq_eq_false_iff_ne.2 (UInt8.ne_of_lt less)
      rw [List.find?_cons_of_neg (by simp [differs])]
      exact ih later ordered

/-- Among the rows on a type, each is found by its name. -/
theorem find?_rowsOn (object : Option Valtype) :
    ∀ op ∈ rowsOn object, (rowsOn object).find? (·.name == op.name) = some op := by
  obtain _ | _ | _ | _ | _ := object
  all_goals decide +kernel

/-- An instruction of the table is found by its name. -/
theorem find?_of_mem (op : Opcode) (listed : op ∈ table) : find? op.object op.name = some op := by
  have found := find?_rowsOn op.object op (mem_rowsOn.2 ⟨listed, rfl⟩)
  rw [rowsOn, List.find?_filter] at found
  simpa only [find?, Bool.decide_and, Bool.decide_eq_true] using found

/-- The names that are whole mnemonics are the spellings used here, and name no type. -/
theorem mnemonic_name : ∀ op ∈ rowsOn none,
    normalizeMnemonic op.name = op.name ∧ splitMnemonic op.name = (none, op.name) := by
  intro op onNone
  unfold normalizeMnemonic splitMnemonic
  rw [Text.cut?, toList_name (mem_rowsOn.1 onNone).1]
  revert op
  decide +kernel

/-- An instruction of the table is found by its mnemonic. -/
theorem ofMnemonic?_of_mem {op : Opcode} (listed : op ∈ table) :
    ofMnemonic? (WasmEngine.mnemonic op.object op.name) = some op := by
  have found := find?_of_mem op listed
  cases object : op.object with
  | none =>
    obtain ⟨normal, whole⟩ := mnemonic_name op (mem_rowsOn.2 ⟨listed, object⟩)
    rw [object] at found
    rw [WasmEngine.mnemonic, ofMnemonic?, normal, whole]
    exact found
  | some t =>
    rw [object] at found
    rw [WasmEngine.mnemonic, ofMnemonic?_mnemonic, (Signatures.ofFamily?_listed.2 op listed).1, found]

theorem byte_of_end (op : Opcode) (listed : op ∈ table) :
    (op.object.isNone && op.name == "end") = true → op.byte = Binary.endByte :=
  (table_checked op listed).1

theorem name_of_endByte (op : Opcode) (listed : op ∈ table) :
    op.byte = Binary.endByte → op.object = none ∧ op.name = "end" :=
  (table_checked op listed).2.1

theorem name_of_elseByte (op : Opcode) (listed : op ∈ table) :
    op.byte = Binary.elseByte → op.object = none ∧ op.name = "else" :=
  (table_checked op listed).2.2.1

theorem notCall_of_immediate (op : Opcode) (listed : op ∈ table) :
    op.immediate ≠ .index → (op.name == "call") = false :=
  (table_checked op listed).2.2.2.1

theorem byte_of_call (op : Opcode) (listed : op ∈ table) :
    (op.name == "call") = true → op.byte = Binary.callByte :=
  (table_checked op listed).2.2.2.2.1

theorem byte_of_block (op : Opcode) (listed : op ∈ table) : op.immediate = .block →
    op.byte = Binary.ifByte ∨ op.byte = Binary.loopByte ∨ op.byte = Binary.blockByte :=
  (table_checked op listed).2.2.2.2.2.1

theorem byte_of_callIndirect (op : Opcode) (listed : op ∈ table) :
    op.immediate = .callIndirect → op.byte = Binary.callIndirectByte :=
  (table_checked op listed).2.2.2.2.2.2

/-- An opcode has the byte that it was found by. -/
theorem byte_of_ofByte? {b : UInt8} {op : Opcode} (found : ofByte? b = some op) : op.byte = b := by
  simpa using List.find?_some found

end Opcode

/-! ## Instructions without labels -/

namespace Node

mutual

/-- A node with the same name for every label inside it. -/
def unlabelled : Node → Node
  | .block _ body result => .block (.synthesized "") (unlabelledIn body) result
  | .loop _ result body => .loop (.synthesized "") result (unlabelledIn body)
  | .ifElse _ result consequent alternate =>
    .ifElse (.synthesized "") result (unlabelledIn consequent) (unlabelledIn alternate)
  | .func name sig locals body metadata => .func name sig locals (unlabelledIn body) metadata
  | .global type init name => .global type (unlabelledIn init) name
  | .elem target offset funcs => .elem target (unlabelledIn offset) funcs
  | .data target offset init => .data target (unlabelledIn offset) init
  | node => node

/-- Nodes with the same name for every label inside them. -/
def unlabelledIn : List Node → List Node
  | [] => []
  | node :: nodes => node.unlabelled :: unlabelledIn nodes

end

/-- Labels are dropped one by one. -/
theorem unlabelledIn_eq_map (nodes : List Node) : unlabelledIn nodes = nodes.map unlabelled := by
  induction nodes with
  | nil => rfl
  | cons node nodes ih => rw [unlabelledIn, ih, List.map_cons]

theorem length_unlabelledIn (nodes : List Node) : (unlabelledIn nodes).length = nodes.length := by
  rw [unlabelledIn_eq_map, List.length_map]

mutual

/-- Every label inside a node was generated for its kind of block. -/
def Labelled : Node → Prop
  | .block label body _ => Binary.Decode.IsLabel "block" label ∧ LabelledIn body
  | .loop label _ body => Binary.Decode.IsLabel "loop" label ∧ LabelledIn body
  | .ifElse label _ consequent alternate =>
    Binary.Decode.IsLabel "if" label ∧ LabelledIn consequent ∧ LabelledIn alternate
  | .func _ _ _ body _ => LabelledIn body
  | .global _ init _ => LabelledIn init
  | .elem _ offset _ => LabelledIn offset
  | .data _ offset _ => LabelledIn offset
  | _ => True

/-- Every label inside some nodes was generated for its kind of block. -/
def LabelledIn : List Node → Prop
  | [] => True
  | node :: nodes => node.Labelled ∧ LabelledIn nodes

end

end Node

namespace Binary.Decode

open Node

/-- The byte that closes a sequence. -/
def Terminator.byte : Terminator → UInt8
  | .finish => endByte
  | .alternative => elseByte

/-- Bytes are what is written of instructions inside `depth` blocks, and are decoded to them up to
labels, whatever closes them. -/
structure Codes (types : List Signature) (depth : Nat) (nodes : List Node) (bytes : List UInt8) :
    Prop where
  encodes : Encode.instructions nodes (typeTable types) = .ok (bytes, typeTable types)
  rereads : ∀ fuel t, bytes.length < fuel →
    Rereads types (bytes ++ [Terminator.byte t]) (instructions fuel depth) fun r =>
      r.2 = t ∧ unlabelledIn r.1 = unlabelledIn nodes

/-- Bytes are what is written of an instruction inside `depth` blocks after its own byte, and are
decoded to it up to labels. -/
structure CodesOne (types : List Signature) (depth : Nat) (node : Node) (op : Opcode)
    (bytes : List UInt8) : Prop where
  encodes : Encode.instruction node (typeTable types) = .ok (op.byte :: bytes, typeTable types)
  rereads : ∀ fuel start, bytes.length ≤ fuel →
    Rereads types bytes (instruction fuel depth start op.byte op) fun other =>
      other.unlabelled = node.unlabelled

section Encoding

variable {α β : Type} {table table' : TypeTable}

/-- What follows a step of the encoder that succeeds. -/
theorem encode_bind {x : EncodeM α} {f : α → EncodeM β} {a : α} (first : x table = .ok (a, table')) :
    (x >>= f) table = f a table' := by
  simp only [bind, StateT.bind, first, Except.bind]

theorem encode_lift {x : Except EncodeError α} {a : α} (first : x = .ok a) :
    (liftM x : EncodeM α) table = .ok (a, table) := by
  rw [first]
  rfl

end Encoding

variable {types : List Signature} {depth : Nat} {node : Node} {nodes : List Node}
  {bytes bytes' : List UInt8} {op : Opcode}

/-- No instructions take no bytes. -/
theorem codes_nil : Codes types depth [] [] := by
  refine ⟨rfl, fun fuel t more => ?_⟩
  obtain ⟨fuel, rfl⟩ := Nat.exists_eq_add_of_lt more
  rw [List.length_nil, Nat.zero_add, instructions_succ]
  refine rereads_pos.after fun start _ => (rereads_byte t.byte).last ?_
  cases t with
  | finish =>
    exact (rereads_note _).after fun _ _ => rereads_pure ⟨rfl, rfl⟩
  | alternative =>
    exact (rereads_note _).after fun _ _ => rereads_pure ⟨rfl, rfl⟩

/-- An instruction in front of others is its byte, its immediates, and their bytes. -/
theorem Codes.cons (listed : op ∈ Opcode.table) (notEnd : op.byte ≠ endByte)
    (notElse : op.byte ≠ elseByte) (first : CodesOne types depth node op bytes)
    (rest : Codes types depth nodes bytes') :
    Codes types depth (node :: nodes) (op.byte :: (bytes ++ bytes')) := by
  refine ⟨?_, fun fuel t more => ?_⟩
  · rw [Encode.instructions_cons, encode_bind first.encodes, encode_bind rest.encodes]
    rfl
  · rw [List.length_cons, List.length_append] at more
    obtain ⟨fuel, rfl⟩ : ∃ k, fuel = k + 1 := ⟨fuel - 1, by omega⟩
    rw [instructions_succ, List.cons_append, List.append_assoc]
    refine rereads_pos.after fun start _ => (rereads_byte op.byte).then ?_
    rw [Opcode.ofByte?_byte listed]
    simp only [if_neg notEnd, if_neg notElse]
    refine (rereads_note _).after fun _ _ => (first.rereads fuel start (by omega)).bind
      fun other same => (rest.rereads fuel t (by omega)).map fun r ⟨closed, others⟩ => ⟨closed, ?_⟩
    rw [unlabelledIn, unlabelledIn, same, others]

/-! ## Blocks -/

theorem rereads_closed {body : List Node} (codes : Codes types depth body bytes) {fuel : Nat}
    (more : bytes.length < fuel) :
    Rereads types (bytes ++ [endByte]) (closed fuel depth) fun other =>
      unlabelledIn other = unlabelledIn body := by
  refine (codes.rereads fuel .finish more).finally fun r ⟨finished, same⟩ => ?_
  obtain ⟨other, t⟩ := r
  subst finished
  exact rereads_pure same

/-- The result of a block and what follows, if the block is not nested too deeply. -/
theorem rereads_structured (nested : depth < maxNesting) {result : Option Valtype} {fuel start : Nat}
    {byte : UInt8} {p : Node → Prop}
    (rest : Rereads types bytes (if byte = ifByte then conditional fuel depth result
      else enclosed fuel depth byte result) p) :
    Rereads types (Encode.blockType result :: bytes) (structured fuel depth start byte) p := by
  simp only [structured, if_neg (Nat.not_le.2 nested)]
  exact (rereads_blockType result).then rest

theorem rereads_enclosed {body : List Node} (codes : Codes types (depth + 1) body bytes)
    {fuel : Nat} (more : bytes.length < fuel) (byte : UInt8) (result : Option Valtype) :
    Rereads types (bytes ++ [endByte]) (enclosed fuel depth byte result) fun other =>
      other.unlabelled = if byte = loopByte then .loop (.synthesized "") result (unlabelledIn body)
        else .block (.synthesized "") (unlabelledIn body) result := by
  refine (rereads_closed codes more).finally fun other same => ?_
  split
  · exact (rereads_label (by decide) (by decide)).map fun id _ => by rw [unlabelled, same]
  · exact (rereads_label (by decide) (by decide)).map fun id _ => by rw [unlabelled, same]

/-- A block is spelled by its type and its body, one level deeper. -/
theorem Codes.block (nested : depth < maxNesting) {body : List Node}
    (codes : Codes types (depth + 1) body bytes) (label : Identifier) (result : Option Valtype)
    {op : Opcode} (isBlock : op.byte = blockByte) (immediate : op.immediate = .block) :
    CodesOne types depth (.block label body result) op
      (Encode.blockType result :: (bytes ++ [endByte])) := by
  refine ⟨?_, fun fuel start more => ?_⟩
  · rw [Encode.instruction_block, encode_bind codes.encodes, isBlock]
    rfl
  · rw [List.length_cons, List.length_append] at more
    rw [instruction, if_pos immediate, isBlock]
    refine rereads_structured nested ?_
    have shorter : bytes.length < fuel := by omega
    have enclosed := rereads_enclosed codes shorter blockByte result
    exact enclosed

/-- A loop is spelled by its type and its body, one level deeper. -/
theorem Codes.loop (nested : depth < maxNesting) {body : List Node}
    (codes : Codes types (depth + 1) body bytes) (label : Identifier) (result : Option Valtype)
    {op : Opcode} (isLoop : op.byte = loopByte) (immediate : op.immediate = .block) :
    CodesOne types depth (.loop label result body) op
      (Encode.blockType result :: (bytes ++ [endByte])) := by
  refine ⟨?_, fun fuel start more => ?_⟩
  · rw [Encode.instruction_loop, encode_bind codes.encodes, isLoop]
    rfl
  · rw [List.length_cons, List.length_append] at more
    rw [instruction, if_pos immediate, isLoop]
    refine rereads_structured nested ?_
    have shorter : bytes.length < fuel := by omega
    have enclosed := rereads_enclosed codes shorter loopByte result
    exact enclosed

/-- What is written of the second part of a conditional. -/
def alternateBytes (alternate : List Node) (bytes : List UInt8) : List UInt8 :=
  if alternate.isEmpty then [] else elseByte :: bytes

/-- A conditional is spelled by its type and its arms, each one level deeper. -/
theorem Codes.ifElse (nested : depth < maxNesting) {consequent alternate : List Node}
    (codes : Codes types (depth + 1) consequent bytes)
    (codes' : Codes types (depth + 1) alternate bytes') (label : Identifier)
    (result : Option Valtype) {op : Opcode} (isIf : op.byte = ifByte)
    (immediate : op.immediate = .block) :
    CodesOne types depth (.ifElse label result consequent alternate) op
      (Encode.blockType result :: (bytes ++ alternateBytes alternate bytes' ++ [endByte])) := by
  refine ⟨?_, fun fuel start more => ?_⟩
  · rw [Encode.instruction_ifElse, encode_bind codes.encodes, encode_bind codes'.encodes, isIf]
    rfl
  · simp only [List.length_cons, List.length_append] at more
    rw [instruction, if_pos immediate, isIf]
    refine rereads_structured nested ?_
    rw [if_pos rfl]
    refine (rereads_label (by decide) (by decide)).after fun id _ => ?_
    cases alternate with
    | nil =>
      rw [alternateBytes, if_pos List.isEmpty_nil, List.append_nil]
      refine (codes.rereads fuel .finish (by omega)).finally fun r ends => ?_
      obtain ⟨other, t⟩ := r
      obtain ⟨rfl, same⟩ := ends
      exact rereads_pure (by rw [unlabelled, unlabelled, same])
    | cons node nodes =>
      have split : bytes ++ alternateBytes (node :: nodes) bytes' ++ [endByte] =
          (bytes ++ [elseByte]) ++ (bytes' ++ [endByte]) := by
        simp [alternateBytes]
      have some_ : (alternateBytes (node :: nodes) bytes').length = bytes'.length + 1 := rfl
      rw [split]
      refine (codes.rereads fuel .alternative (by omega)).bind fun r ends => ?_
      obtain ⟨other, t⟩ := r
      obtain ⟨rfl, same⟩ := ends
      exact (rereads_closed codes' (by omega)).map fun another same' => by
        rw [unlabelled, unlabelled, same, same']

/-! ## Plain instructions -/

/-- What is written of a plain instruction. -/
theorem encode_plain {op : Opcode} (listed : op ∈ Opcode.table) (notEnd : op.byte ≠ endByte)
    {args : List Node} {memArg : Option MemArg}
    (encodes : ∀ invalid, Encode.immediates op invalid args memArg = .ok bytes) :
    Encode.plain op.name op.object args memArg = .ok (op.byte :: bytes) := by
  have notImplied : ¬ (op.object.isNone && op.name == "end") = true := fun implied =>
    notEnd (Opcode.byte_of_end op listed implied)
  simp only [Encode.plain, if_neg notImplied, Opcode.ofMnemonic?_of_mem listed, encodes]
  rfl

/-- A plain instruction whose immediates are read again. -/
theorem codes_plain {op : Opcode} (listed : op ∈ Opcode.table) (notBlock : op.immediate ≠ .block)
    (notEnd : op.byte ≠ endByte) {args : List Node} {memArg : Option MemArg}
    (encodes : ∀ invalid, Encode.immediates op invalid args memArg = .ok bytes)
    (rereads : Rereads types bytes (simple op) (· = plain op args memArg)) :
    CodesOne types depth (plain op args memArg) op bytes := by
  refine ⟨?_, fun fuel start _ => ?_⟩
  · rw [plain, Encode.instruction_instr]
    exact encode_lift (encode_plain listed notEnd encodes)
  · rw [instruction, if_neg notBlock]
    exact rereads.mono fun _ same => same ▸ rfl

/-- A number of 32 bits is spelled as itself. -/
theorem toU32_ofInt {n : Nat} (fits : n < UInt32.size) : (NumberLiteral.ofInt n).toU32 = n := by
  show ((n : Int) % UInt32.size).toNat = n
  rw [Int.emod_eq_of_lt (by omega) (by omega), Int.toNat_natCast]

theorem indexArg_eq {n : Nat} (fits : n < UInt32.size) (invalid : EncodeError) :
    Encode.indexArg invalid (some (indexArg n)) = .ok (Encode.u32 n) := by
  rw [indexArg, Encode.indexArg, toU32_ofInt fits]

/-- A call is spelled by the number of its function. -/
theorem codes_call {n : Nat} (fits : n < UInt32.size) {op : Opcode} (listed : op ∈ Opcode.table)
    (kind : op.immediate = .index) (isCall : (op.name == "call") = true) :
    CodesOne types depth (.call (.ofNat n)) op (Encode.u32 n) := by
  have number : Encode.index (.ofNat n) = .ok n := by
    rw [Index.ofNat, Encode.index, toU32_ofInt fits]
  refine ⟨?_, fun fuel start _ => ?_⟩
  · rw [Encode.instruction_call, encode_bind (encode_lift number), Opcode.byte_of_call op listed isCall]
    rfl
  · rw [instruction, if_neg (by rw [kind]; decide)]
    simp only [simple, kind, if_pos isCall]
    exact (rereads_u32 fits).map fun _ same => same ▸ rfl

/-- A call through a table is spelled by the number of its type. -/
theorem codes_callIndirect {s : Signature} {i : Nat} (placed : Placed types s i)
    (fits : i < UInt32.size) {op : Opcode} (listed : op ∈ Opcode.table)
    (kind : op.immediate = .callIndirect) :
    CodesOne types depth (.callIndirect (.inline s)) op (Encode.u32 i ++ [0x00]) := by
  refine ⟨?_, fun fuel start _ => ?_⟩
  · rw [Encode.instruction_callIndirect, encode_bind placed.typeIndex_eq, Opcode.byte_of_callIndirect op listed kind]
    rfl
  · rw [instruction, if_neg (by rw [kind]; decide)]
    simp only [simple, kind]
    refine rereads_pos.after fun _ _ => (rereads_u32 fits).then (rereads_get.after fun d same => ?_)
    rw [same, placed.2]
    exact rereads_zeroFlag.map fun _ _ => rfl

theorem mapM_indexArg {labels : List Nat} (fits : ∀ n ∈ labels, n < UInt32.size)
    (invalid : EncodeError) :
    (labels.map indexArg).mapM (fun arg => Encode.indexArg invalid (some arg)) =
      .ok (labels.map Encode.u32) := by
  induction labels with
  | nil => rfl
  | cons n labels ih =>
    obtain ⟨first, others⟩ := List.forall_mem_cons.1 fits
    rw [List.map_cons, List.mapM_cons, indexArg_eq first, ih others]
    rfl

theorem toI32_ofInt {v : Int} (fits : Leb128.Fits 31 v) : (NumberLiteral.ofInt v).toI32 = v := by
  obtain ⟨lower, upper⟩ := fits
  show Int.bmod v UInt32.size = v
  rw [Int.bmod_eq_of_le] <;> simp only [UInt32.size] at * <;> omega

/-- An instruction with generated labels after its byte, of which another one is read up to labels. -/
def Again (later : List Signature) (depth : Nat) (op : Opcode) (node : Node) (n : Nat) : Prop :=
  ∃ bytes, CodesOne later depth node op bytes ∧ node.Labelled ∧ bytes.length ≤ n

/-- A plain instruction is spelled in no more bytes than were read. -/
theorem takes_simple {later : List Signature} (extends_ : types <+: later)
    (anonymous : ∀ s ∈ later, IsAnonymous s) (depth : Nat) {op : Opcode} (listed : op ∈ Opcode.table)
    (notBlock : op.immediate ≠ .block) (notEnd : op.byte ≠ endByte) :
    Takes types (Again later depth op) (simple op) := by
  have codes (bytes : List UInt8) {args : List Node} {memArg : Option MemArg} {n : Nat}
      (encodes : ∀ invalid, Encode.immediates op invalid args memArg = .ok bytes)
      (rereads : Rereads later bytes (simple op) (· = plain op args memArg))
      (size : bytes.length ≤ n) : Again later depth op (plain op args memArg) n :=
    ⟨bytes, codes_plain listed notBlock notEnd encodes rereads, trivial, size⟩
  cases kind : op.immediate with
  | none =>
    simp only [simple, kind] at codes ⊢
    exact takes_pure (codes [] (fun _ => by simp only [Encode.immediates, kind]) (rereads_pure rfl)
      (Nat.le_refl 0))
  | block => exact absurd kind notBlock
  | index =>
    simp only [simple, kind] at codes ⊢
    refine takes_u32.bind fun index n ⟨fits, size⟩ => ?_
    by_cases isCall : (op.name == "call") = true
    · simp only [if_pos isCall]
      exact takes_pure ⟨_, codes_call fits listed kind isCall, trivial, size⟩
    · simp only [if_neg isCall] at codes ⊢
      refine takes_pure (codes (Encode.u32 index) (fun invalid => ?_) ?_ size)
      · simp only [Encode.immediates, kind, List.head?_cons, indexArg_eq fits]
      · exact (rereads_u32 fits).map fun _ same => same ▸ rfl
  | brTable =>
    simp only [simple, kind] at codes ⊢
    refine takes_u32.bind fun count n ⟨fits, size⟩ =>
      (takes_times takes_u32 (count + 1)).bind fun labels k ⟨length, all, sizes⟩ => ?_
    refine takes_pure (codes (Encode.u32 count ++ labels.flatMap Encode.u32) (fun invalid => ?_) ?_ ?_)
    · have some_ : (labels.map indexArg).isEmpty = false := by
        cases labels with
        | nil => cases length
        | cons label labels => rfl
      simp only [Encode.immediates, kind, some_, Bool.false_eq_true, if_false,
        mapM_indexArg all, List.length_map, length, Nat.add_sub_cancel, List.flatMap_def]
      rfl
    · have again : Rereads later (labels.flatMap Encode.u32) (times (read .u32) (count + 1))
          (· = labels) := length ▸ rereads_times (fun _ => rereads_u32) labels all
      exact (rereads_u32 fits).then (again.map fun _ same => same ▸ rfl)
    · rw [List.length_append]
      omega
  | callIndirect =>
    simp only [simple, kind]
    refine takes_pos.after fun start _ => takes_u32.bind fun index n ⟨fits, size⟩ =>
      takes_get.after fun d same => ?_
    rw [same]
    split
    · exact takes_failAt
    · next s here =>
      obtain ⟨i, placed, fits', size'⟩ := exists_placed_sized extends_ anonymous here ⟨fits, size⟩
      refine takes_zeroFlag.bind fun _ k some_ =>
        takes_pure ⟨_, codes_callIndirect placed fits' listed kind, trivial, ?_⟩
      rw [List.length_append, List.length_singleton]
      omega
  | memArg =>
    simp only [simple, kind] at codes ⊢
    refine takes_u32.bind fun align n ⟨fits, size⟩ => takes_u32.bind fun offset k ⟨fits', size'⟩ =>
      takes_pure (codes (Encode.u32 align ++ Encode.u32 offset) (fun _ => ?_) ?_ ?_)
    · simp only [Encode.immediates, kind]
    · exact (rereads_u32 fits).then ((rereads_u32 fits').map fun _ same => same ▸ rfl)
    · rw [List.length_append]
      omega
  | memoryReserved =>
    simp only [simple, kind] at codes ⊢
    refine takes_zeroFlag.bind fun _ n some_ =>
      takes_pure (codes [0x00] (fun _ => ?_) ?_ some_)
    · simp only [Encode.immediates, kind]
    · exact rereads_zeroFlag.map fun _ _ => rfl
  | i32 =>
    simp only [simple, kind] at codes ⊢
    refine (takes_read Read.gives_i32).bind fun v n ⟨fits, size⟩ =>
      takes_pure (codes (Write.signed v) (fun _ => ?_) ?_ size)
    · simp only [Encode.immediates, kind, List.head?_cons, toI32_ofInt fits]
    · exact (rereads_read (Read.spells_i32 fits)).map fun _ same => same ▸ rfl
  | i64 =>
    simp only [simple, kind] at codes ⊢
    refine (takes_read Read.gives_i64).bind fun v n ⟨fits, size⟩ =>
      takes_pure (codes (Write.signed v) (fun _ => ?_) ?_ size)
    · simp only [Encode.immediates, kind, List.head?_cons, LongNumber.toInt_ofInt]
    · exact (rereads_read (Read.spells_i64 fits)).map fun _ same => same ▸ rfl
  | f32 =>
    simp only [simple, kind] at codes ⊢
    refine (takes_read (Read.gives_word 4)).bind fun bits n ⟨fits, size⟩ =>
      takes_pure (codes (LittleEndian.bytes 4 bits) (fun _ => ?_) ?_ ?_)
    · simp only [Encode.immediates, kind, List.head?_cons, FloatLiteral.ofF32, FloatLiteral.toF32]
    · exact (rereads_read (Read.spells_word fits)).map fun _ same => same ▸ rfl
    · rw [LittleEndian.length_bytes]
      omega
  | f64 =>
    simp only [simple, kind] at codes ⊢
    refine (takes_read (Read.gives_word 8)).bind fun bits n ⟨fits, size⟩ =>
      takes_pure (codes (LittleEndian.bytes 8 bits) (fun _ => ?_) ?_ ?_)
    · simp only [Encode.immediates, kind, List.head?_cons, FloatLiteral.ofF64, FloatLiteral.toF64]
    · exact (rereads_read (Read.spells_word fits)).map fun _ same => same ▸ rfl
    · rw [LittleEndian.length_bytes]
      omega

/-! ## Sequences -/

/-- Instructions with generated labels before their closing byte, of which others are read up to
labels. -/
def AgainIn (later : List Signature) (depth : Nat) (nodes : List Node) (n : Nat) : Prop :=
  ∃ bytes, Codes later depth nodes bytes ∧ LabelledIn nodes ∧ bytes.length + 1 ≤ n

/-- Where only an end may close a sequence, it is an end that did. -/
theorem takes_requireFinish (t : Terminator) :
    Takes types (fun _ n => n = 0 ∧ t = .finish) (requireFinish t) := by
  cases t with
  | finish => exact takes_pure ⟨rfl, rfl⟩
  | alternative => exact takes_pos.after fun _ _ => takes_failAt

section Sequences

variable {later : List Signature} {fuel : Nat}
  (ih : ∀ depth, Takes types (fun r n => AgainIn later depth r.1 n) (instructions fuel depth))
include ih

theorem takes_closed (depth : Nat) : Takes types (AgainIn later depth) (closed fuel depth) :=
  (ih depth).bind fun r _ again => (takes_requireFinish r.2).after fun _ _ => takes_pure again

/-- A conditional is spelled in no more bytes than were read. -/
theorem takes_conditional (nested : depth < maxNesting) {op : Opcode} (isIf : op.byte = ifByte)
    (immediate : op.immediate = .block) (result : Option Valtype) :
    Takes types (fun node n => Again later depth op node (1 + n)) (conditional fuel depth result) := by
  refine (takes_label (by decide) (by decide)).after fun label generated =>
    (ih (depth + 1)).bind fun first n ⟨bs, codes, labelled, size⟩ => ?_
  have second : Takes types (fun alternate k => ∃ bytes', Codes later (depth + 1) alternate bytes' ∧
      LabelledIn alternate ∧ (alternateBytes alternate bytes').length ≤ k)
      (alternative fuel depth first.2) := by
    unfold alternative
    split
    · refine (takes_closed ih (depth + 1)).mono fun alternate k ⟨bytes', codes', labelled', size'⟩ =>
        ⟨bytes', codes', labelled', ?_⟩
      unfold alternateBytes
      split
      · exact Nat.zero_le k
      · exact size'
    · exact takes_pure ⟨[], codes_nil, trivial, Nat.le_refl 0⟩
  refine second.bind fun alternate k ⟨bytes', codes', labelled', size'⟩ =>
    takes_pure ⟨_, codes.ifElse nested codes' label result isIf immediate,
      ⟨generated, labelled, labelled'⟩, ?_⟩
  simp only [List.length_cons, List.length_append, List.length_nil]
  omega

/-- A block or a loop is spelled in no more bytes than were read. -/
theorem takes_enclosed (nested : depth < maxNesting) {op : Opcode}
    (known : op.byte = loopByte ∨ op.byte = blockByte) (immediate : op.immediate = .block)
    (result : Option Valtype) :
    Takes types (fun node n => Again later depth op node (1 + n))
      (enclosed fuel depth op.byte result) := by
  refine (takes_closed ih (depth + 1)).bind fun body n ⟨bs, codes, labelled, size⟩ => ?_
  have fits : (Encode.blockType result :: (bs ++ [endByte])).length ≤ 1 + (n + 0) := by
    simp only [List.length_cons, List.length_append, List.length_nil]
    omega
  split
  · next isLoop =>
    exact (takes_label (by decide) (by decide)).after fun label generated =>
      takes_pure ⟨_, codes.loop nested label result isLoop immediate, ⟨generated, labelled⟩, fits⟩
  · next notLoop =>
    have isBlock := known.resolve_left notLoop
    exact (takes_label (by decide) (by decide)).after fun label generated =>
      takes_pure ⟨_, codes.block nested label result isBlock immediate, ⟨generated, labelled⟩, fits⟩

/-- An instruction is spelled in no more bytes than were read. -/
theorem takes_instruction (extends_ : types <+: later) (anonymous : ∀ s ∈ later, IsAnonymous s)
    (depth start : Nat) {op : Opcode} (listed : op ∈ Opcode.table) (notEnd : op.byte ≠ endByte) :
    Takes types (Again later depth op) (instruction fuel depth start op.byte op) := by
  unfold instruction
  split
  · next immediate =>
    by_cases nested : maxNesting ≤ depth
    · simp only [structured, if_pos nested]
      exact takes_refused
    · simp only [structured, if_neg nested]
      refine takes_blockType.bind fun result n one => ?_
      subst one
      have known := Opcode.byte_of_block op listed immediate
      split
      · next isIf => exact takes_conditional ih (by omega) isIf immediate result
      · next notIf =>
        exact takes_enclosed ih (by omega) (known.resolve_left notIf) immediate result
  · next notBlock => exact takes_simple extends_ anonymous depth listed notBlock notEnd

end Sequences

/-- Instructions are spelled in no more bytes than were read, by induction on the bound of the recursion. -/
theorem takes_instructions {later : List Signature} (extends_ : types <+: later)
    (anonymous : ∀ s ∈ later, IsAnonymous s) (fuel depth : Nat) :
    Takes types (fun r n => AgainIn later depth r.1 n) (instructions fuel depth) := by
  induction fuel generalizing depth with
  | zero => exact takes_read Read.gives_fail
  | succ fuel ih =>
    rw [instructions_succ]
    refine takes_pos.after fun start _ => takes_byte.bind fun byte n one => ?_
    subst one
    split
    · exact takes_failAt
    · next op found =>
      have listed := Opcode.mem_of_ofByte? found
      have same := Opcode.byte_of_ofByte? found
      subst same
      refine (takes_note _).after fun _ _ => ?_
      split
      · exact takes_pure ⟨[], codes_nil, trivial, Nat.le_refl 1⟩
      · next notEnd =>
        split
        · exact takes_pure ⟨[], codes_nil, trivial, Nat.le_refl 1⟩
        · next notElse =>
          refine (takes_instruction ih extends_ anonymous depth start listed notEnd).bind
            fun node n ⟨bs, first, labelled, size⟩ =>
              (ih depth).bind fun r k ⟨bs', rest, labelled', size'⟩ => ?_
          refine takes_pure ⟨_, Codes.cons listed notEnd notElse first rest, ⟨labelled, labelled'⟩, ?_⟩
          rw [List.length_cons, List.length_append]
          omega

/-! ## Expressions -/

/-- What is written of an expression, nothing if it has no binary form. -/
def expressionBytes (types : List Signature) (body : List Node) : List UInt8 :=
  match Encode.instructions body (typeTable types) with
  | .ok (bs, _) => bs ++ [endByte]
  | .error _ => []

/-- An expression that is written and read again up to labels. -/
def IsExpression (types : List Signature) (body : List Node) : Prop := ∃ bs, Codes types 0 body bs

/-- An expression is spelled as its instructions and an end. -/
theorem Codes.expressionBytes_eq {body : List Node} (codes : Codes types 0 body bytes) :
    expressionBytes types body = bytes ++ [endByte] := by
  rw [expressionBytes, codes.encodes]

/-- An expression that can be spelled is encoded so. -/
theorem IsExpression.encodes {body : List Node} (holds : IsExpression types body) :
    Encode.expression body (typeTable types) = .ok (expressionBytes types body, typeTable types) := by
  obtain ⟨bs, codes⟩ := holds
  rw [Encode.expression, encode_bind codes.encodes, codes.expressionBytes_eq]
  rfl

/-- An expression that was spelled is read again but for its labels. -/
theorem IsExpression.rereads {body : List Node} (holds : IsExpression types body) :
    Rereads types (expressionBytes types body) expression fun other =>
      unlabelledIn other = unlabelledIn body := by
  obtain ⟨bs, codes⟩ := holds
  rw [codes.expressionBytes_eq]
  intro d rest same here
  have room : bs.length < d.reader.remaining + 1 := by
    rw [Reader.remaining, here, List.length_append, List.length_append]
    omega
  exact rereads_closed codes room d rest same here

/-- An expression is spelled in no more bytes than were read. -/
theorem takes_expression {later : List Signature} (extends_ : types <+: later)
    (anonymous : ∀ s ∈ later, IsAnonymous s) :
    Takes types (fun body n => IsExpression later body ∧ LabelledIn body ∧
      (expressionBytes later body).length ≤ n) expression := by
  have closed (fuel : Nat) : Takes types (AgainIn later 0) (closed fuel 0) :=
    takes_closed (takes_instructions extends_ anonymous fuel) 0
  refine takes_get.after fun d _ => (closed _).mono fun body n ⟨bs, codes, labelled, size⟩ =>
    ⟨⟨bs, codes⟩, labelled, ?_⟩
  rw [codes.expressionBytes_eq, List.length_append]
  exact size

end Binary.Decode

end WasmEngine
