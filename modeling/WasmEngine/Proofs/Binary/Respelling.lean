import WasmEngine.Proofs.Binary.EntrySpelling
import WasmEngine.Proofs.Binary.TypeTables

/-!
# Instructions in the spelling of the decoder

The decoder spells literals and references in one way and gives parameters no names.  An instruction
and the same one in that spelling are written alike (`instruction_respelled`), and what is written is
decoded to the latter up to the names of labels (`exists_codesOne`).
-/

namespace WasmEngine

/-! ## The spelling of the decoder -/

/-- A number in its decimal spelling. -/
def NumberLiteral.respelled (n : NumberLiteral) : NumberLiteral := .ofInt n.value

/-- A number in its decimal spelling. -/
def LongNumberLiteral.respelled (n : LongNumberLiteral) : LongNumberLiteral :=
  { n with raw := toString n.value.toInt }

/-- A float literal in the spelling of its pattern. -/
def FloatLiteral.respelled (l : FloatLiteral) : FloatLiteral :=
  { l with raw := match l.bits with
      | .f32 bits => binary32.display bits
      | .f64 bits => binary64.display bits }

/-- A reference whose number is in its decimal spelling. -/
def Index.respelled : Index → Index
  | .number n => .number n.respelled
  | .identifier id => .identifier id

/-- A signature without names. -/
def Signature.anonymous (s : Signature) : Signature := ⟨s.paramTypes.map .anonymous, s.results⟩

/-- A signature in place without names. -/
def SignatureRef.anonymous : SignatureRef → SignatureRef
  | .inline s => .inline s.anonymous
  | .ref i => .ref i

namespace Node

mutual

/-- An instruction in the spelling of the decoder. -/
def respelled : Node → Node
  | .instr id object args memArg => .instr id object (respelledIn args) memArg
  | .block label body result => .block label (respelledIn body) result
  | .loop label result body => .loop label result (respelledIn body)
  | .ifElse label result consequent alternate =>
    .ifElse label result (respelledIn consequent) (respelledIn alternate)
  | .call i => .call i.respelled
  | .callIndirect s => .callIndirect s.anonymous
  | .number n => .number n.respelled
  | .longNumber n => .longNumber n.respelled
  | .float l => .float l.respelled
  | node => node

/-- Instructions in the spelling of the decoder. -/
def respelledIn : List Node → List Node
  | [] => []
  | node :: nodes => node.respelled :: respelledIn nodes

end

/-- Instructions are respelled one by one. -/
theorem respelledIn_eq_map (nodes : List Node) : respelledIn nodes = nodes.map respelled := by
  induction nodes with
  | nil => rfl
  | cons node nodes ih => rw [respelledIn, ih, List.map_cons]

theorem length_respelledIn (nodes : List Node) : (respelledIn nodes).length = nodes.length := by
  rw [respelledIn_eq_map, List.length_map]

theorem respelled_ofIndex (i : Index) : (ofIndex i).respelled = ofIndex i.respelled := by
  cases i <;> rfl

end Node

/-- Names of parameters are no part of a type. -/
theorem Signature.paramTypes_anonymous (s : Signature) : s.anonymous.paramTypes = s.paramTypes := by
  rw [paramTypes, anonymous, List.map_map]
  exact List.map_id _

theorem Signature.funcType_anonymous (s : Signature) : s.anonymous.funcType = s.funcType := by
  rw [funcType, paramTypes_anonymous]
  rfl

theorem Signature.isAnonymous_anonymous (s : Signature) : Binary.Decode.IsAnonymous s.anonymous := by
  rw [Binary.Decode.IsAnonymous, paramTypes_anonymous]
  rfl

namespace Binary

open Node Decode

/-! ## The spelling is not written -/

namespace Encode

/-- How an index was spelled does not change what it is encoded as. -/
theorem index_respelled (i : Index) : index i.respelled = index i := by
  cases i <;> rfl

theorem typeIndex_anonymous (s : SignatureRef) : typeIndex s.anonymous = typeIndex s := by
  funext table
  cases s with
  | inline s => simp only [SignatureRef.anonymous, typeIndex, Signature.funcType_anonymous]
  | ref i => rfl

/-- Nor does the spelling of the index of an instruction. -/
theorem indexArg_respelled (invalid : EncodeError) (arg : Option Node) :
    indexArg invalid (arg.map Node.respelled) = indexArg invalid arg := by
  cases arg with
  | none => rfl
  | some node => cases node <;> rfl

/-- Nor does the spelling of any literal of a plain instruction. -/
theorem immediates_respelled (op : Opcode) (invalid : EncodeError) (args : List Node)
    (memArg : Option MemArg) :
    immediates op invalid (respelledIn args) memArg = immediates op invalid args memArg := by
  have labels : (respelledIn args).mapM (fun arg => indexArg invalid (some arg)) =
      args.mapM fun arg => indexArg invalid (some arg) := by
    induction args with
    | nil => rfl
    | cons arg args ih =>
      rw [respelledIn, List.mapM_cons, List.mapM_cons, ih, ← indexArg_respelled invalid (some arg)]
      rfl
  have empty : (respelledIn args).isEmpty = args.isEmpty := by cases args <;> rfl
  have first : (respelledIn args).head? = args.head?.map Node.respelled := by cases args <;> rfl
  unfold immediates
  rw [labels, empty, first, indexArg_respelled, length_respelledIn]
  cases args.head? with
  | none => rfl
  | some node => cases node <;> rfl

mutual

/-- An instruction is encoded as its literals are, however they were spelled. -/
theorem instruction_respelled (node : Node) : instruction node.respelled = instruction node := by
  cases node with
  | instr id object args memArg =>
    rw [respelled, instruction, instruction, plain, plain]
    simp only [immediates_respelled]
  | block label body result =>
    rw [respelled, instruction, instruction, instructions_respelledIn body]
  | loop label result body =>
    rw [respelled, instruction, instruction, instructions_respelledIn body]
  | ifElse label result consequent alternate =>
    have empty : (respelledIn alternate).isEmpty = alternate.isEmpty := by cases alternate <;> rfl
    rw [respelled, instruction, instruction, instructions_respelledIn consequent,
      instructions_respelledIn alternate, empty]
  | call i => rw [respelled, instruction, instruction, index_respelled]
  | callIndirect s => rw [respelled, instruction, instruction, typeIndex_anonymous]
  | _ => rfl

theorem instructions_respelledIn (nodes : List Node) :
    instructions (respelledIn nodes) = instructions nodes := by
  cases nodes with
  | nil => rfl
  | cons node nodes =>
    rw [respelledIn, instructions, instructions, instruction_respelled node,
      instructions_respelledIn nodes]

end

end Encode

variable {T : List Signature} {depth : Nat}

/-! ## What is decoded -/

namespace Decode

/-- A position is respelled as a number of 32 bits. -/
theorem exists_ofNat {i : Index} (position : i.IsPosition) :
    ∃ n, n < UInt32.size ∧ i.respelled = .ofNat n := by
  cases i with
  | number l =>
    obtain ⟨n, value, fits⟩ := position
    exact ⟨n, fits, by rw [Index.respelled, NumberLiteral.respelled, value]; rfl⟩
  | identifier id => cases position

/-- Positions are respelled as numbers of 32 bits. -/
theorem exists_ofNats {is : List Index} (positions : ∀ i ∈ is, i.IsPosition) :
    ∃ ns : List Nat, (∀ n ∈ ns, n < UInt32.size) ∧ is.map Index.respelled = ns.map .ofNat := by
  induction is with
  | nil => exact ⟨[], nofun, rfl⟩
  | cons i is ih =>
    obtain ⟨first, others⟩ := List.forall_mem_cons.1 positions
    obtain ⟨n, fits, here⟩ := exists_ofNat first
    obtain ⟨ns, fits', there⟩ := ih others
    exact ⟨n :: ns, List.forall_mem_cons.2 ⟨fits, fits'⟩, by
      rw [List.map_cons, List.map_cons, here, there]⟩

/-- What is written of the arguments of an instruction is read as them in the spelling of the decoder,
unless it is too long to count the labels of a table. -/
theorem exists_operands {op : Opcode} (notCall : (op.name == "call") = false) {args : List Node}
    {memArg : Option MemArg} (operands : Operands Index.IsPosition op.immediate args memArg) :
    ∃ bytes, (∀ invalid, Encode.immediates op invalid (respelledIn args) memArg = .ok bytes) ∧
      (bytes.length < UInt32.size →
        Rereads T bytes (simple op) (· = plain op (respelledIn args) memArg)) := by
  cases kind : op.immediate with
  | none =>
    rw [kind] at operands
    cases operands
    refine ⟨[], fun _ => by simp only [Encode.immediates, kind], fun _ => ?_⟩
    simp only [simple, kind]
    exact rereads_pure rfl
  | memoryReserved =>
    rw [kind] at operands
    cases operands
    refine ⟨[0x00], fun _ => by simp only [Encode.immediates, kind], fun _ => ?_⟩
    simp only [simple, kind]
    exact rereads_zeroFlag.map fun _ _ => rfl
  | index =>
    rw [kind] at operands
    cases operands with
    | index position =>
      obtain ⟨n, fits, same⟩ := exists_ofNat position
      rw [respelledIn, respelled_ofIndex, same]
      refine ⟨Encode.u32 n, fun invalid => ?_, fun _ => ?_⟩
      · simp only [Encode.immediates, kind]
        exact indexArg_eq fits invalid
      · simp only [simple, kind, notCall, Bool.false_eq_true, if_false]
        exact (rereads_u32 fits).map fun _ same => same ▸ rfl
  | brTable =>
    rw [kind] at operands
    cases operands with
    | @brTable is some_ positions =>
      obtain ⟨ns, fits, same⟩ := exists_ofNats positions
      have args : respelledIn (is.map ofIndex) = ns.map indexArg :=
        calc respelledIn (is.map ofIndex) = (is.map Index.respelled).map ofIndex := by
              rw [respelledIn_eq_map, List.map_map, List.map_map]
              exact List.map_congr_left fun i _ => respelled_ofIndex i
          _ = ns.map indexArg := by rw [same, List.map_map]; rfl
      obtain ⟨count, length⟩ : ∃ count, ns.length = count + 1 := by
        cases ns with
        | nil => exact absurd (List.map_eq_nil_iff.1 same) some_
        | cons n ns => exact ⟨ns.length, rfl⟩
      have filled : (ns.map indexArg).isEmpty = false := by
        rw [List.isEmpty_eq_false_iff, ← List.length_pos_iff, List.length_map]
        omega
      have again : Rereads T (ns.flatMap Encode.u32) (times (read .u32) (count + 1)) (· = ns) :=
        length ▸ rereads_times (fun _ => rereads_u32) ns fits
      rw [args]
      refine ⟨Encode.u32 count ++ ns.flatMap Encode.u32, fun invalid => ?_, fun short => ?_⟩
      · simp only [Encode.immediates, kind, filled, Bool.false_eq_true, if_false,
          mapM_indexArg fits, List.length_map, length, Nat.add_sub_cancel, List.flatMap_def]
        rfl
      · have few : ns.length ≤ (ns.flatMap Encode.u32).length :=
          length_le_flatMap fun n _ => length_u32_pos n
        rw [List.length_append] at short
        simp only [simple, kind]
        exact (rereads_u32 (by omega)).then (again.map fun _ same => same ▸ rfl)
  | memArg =>
    rw [kind] at operands
    cases operands with
    | @memArg align offset aligned within =>
      refine ⟨Encode.u32 align ++ Encode.u32 offset,
        fun _ => by simp only [Encode.immediates, kind], fun _ => ?_⟩
      simp only [simple, kind]
      exact (rereads_u32 aligned).then ((rereads_u32 within).map fun _ same => same ▸ rfl)
  | i32 =>
    rw [kind] at operands
    cases operands with
    | @i32 v raw fits =>
      refine ⟨Write.signed v, fun _ => ?_, fun _ => ?_⟩
      · simp only [Encode.immediates, kind, respelledIn, respelled, List.head?_cons,
          NumberLiteral.respelled, toI32_ofInt fits]
      · simp only [simple, kind]
        exact (rereads_read (Read.spells_i32 fits)).map fun _ same => same ▸ rfl
  | i64 =>
    rw [kind] at operands
    cases operands with
    | @i64 v raw fits =>
      refine ⟨Write.signed v, fun _ => ?_, fun _ => ?_⟩
      · simp only [Encode.immediates, kind, respelledIn, respelled, List.head?_cons,
          LongNumberLiteral.respelled, LongNumber.toInt_ofInt]
      · simp only [simple, kind, respelledIn, respelled, LongNumberLiteral.respelled, LongNumber.toInt_ofInt]
        exact (rereads_read (Read.spells_i64 fits)).map fun _ same => same ▸ rfl
  | f32 =>
    rw [kind] at operands
    cases operands with
    | @f32 bits raw fits =>
      refine ⟨LittleEndian.bytes 4 bits, fun _ => by simp only [Encode.immediates, kind]; rfl,
        fun _ => ?_⟩
      simp only [simple, kind]
      exact (rereads_read (Read.spells_word fits)).map fun _ same => same ▸ rfl
  | f64 =>
    rw [kind] at operands
    cases operands with
    | @f64 bits raw fits =>
      refine ⟨LittleEndian.bytes 8 bits, fun _ => by simp only [Encode.immediates, kind]; rfl,
        fun _ => ?_⟩
      simp only [simple, kind]
      exact (rereads_read (Read.spells_word fits)).map fun _ same => same ▸ rfl
  | block | callIndirect =>
    rw [kind] at operands
    cases operands

/-- Bytes are what is written of an instruction inside `depth` blocks, and are decoded to it up to
labels. -/
def HasCode (T : List Signature) (depth : Nat) (node : Node) (bytes : List UInt8) : Prop :=
  ∃ op ∈ Opcode.table, op.byte ≠ endByte ∧ op.byte ≠ elseByte ∧ ∃ rest, bytes = op.byte :: rest ∧
    CodesOne T depth node op rest

/-- An instruction is decoded in the spelling of the decoder if what is written of it, against a type
section that has all its signatures, is short enough. -/
def Respells (T : List Signature) (depth : Nat) (node : Node) : Prop :=
  ∀ bytes, Encode.instruction node (typeTable T) = .ok (bytes, typeTable T) →
    bytes.length < UInt32.size → HasCode T depth node.respelled bytes

/-- Instructions that are each respelled as code are so in a row. -/
theorem codes_of_respells {nodes : List Node} (grows : ∀ node ∈ nodes, Encode.Grows (Encode.instruction node))
    (each : ∀ node ∈ nodes, Respells T depth node) {bytes : List UInt8}
    (settled : Encode.instructions nodes (typeTable T) = .ok (bytes, typeTable T))
    (short : bytes.length < UInt32.size) : Codes T depth (respelledIn nodes) bytes := by
  induction nodes generalizing bytes with
  | nil =>
    cases settled
    exact codes_nil
  | cons node nodes ih =>
    obtain ⟨first, others⟩ := List.forall_mem_cons.1 grows
    obtain ⟨here, there⟩ := List.forall_mem_cons.1 each
    rw [Encode.instructions_cons] at settled
    obtain ⟨b, now, settled⟩ := first.of_bind
      (fun b => (Encode.grows_of_all others).bind fun bs => Encode.grows_pure _) settled
    obtain ⟨bs, later, settled⟩ :=
      (Encode.grows_of_all others).of_bind (fun bs => Encode.grows_pure _) settled
    cases settled
    rw [List.length_append] at short
    obtain ⟨op, listed, notEnd, notElse, rest, rfl, codes⟩ := here b now (by omega)
    exact Codes.cons listed notEnd notElse codes (ih others there later (by omega))

/-- The type of a signature that is written without a further entry is listed. -/
theorem findIdx?_of_typeIndex {s : Signature} {i : Nat}
    (settled : Encode.typeIndex (.inline s) (typeTable T) = .ok (i, typeTable T)) :
    (T.map Signature.funcType).findIdx? (· == s.funcType) = some i := by
  simp only [Encode.typeIndex, typeTable] at settled
  split at settled
  · next _ found =>
    cases settled
    exact found
  · have length := congrArg (fun r => r.2.entries.length) (Except.ok.inj settled)
    simp at length

/-- A signature that the type section is closed under has its place there. -/
theorem placed_of_typeIndex (anonymous : ∀ s ∈ T, IsAnonymous s) {s : Signature} {i : Nat}
    (settled : Encode.typeIndex (.inline s) (typeTable T) = .ok (i, typeTable T)) :
    Placed T s.anonymous i := by
  have found := findIdx?_of_typeIndex settled
  obtain ⟨within, same, -⟩ := List.findIdx?_eq_some_iff_getElem.1 found
  rw [List.length_map] at within
  rw [List.getElem_map, beq_iff_eq, ← s.funcType_anonymous] at same
  have equal := eq_of_funcType (anonymous _ (List.getElem_mem within)) s.isAnonymous_anonymous same
  exact ⟨by rwa [s.funcType_anonymous], by rw [List.getElem?_eq_getElem within, equal]⟩

/-- A place in the type section is one of its entries. -/
theorem lt_of_placed {s : Signature} {i : Nat} (placed : Placed T s i) : i < T.length :=
  (List.getElem?_eq_some_iff.1 placed.2).1

/-- An instruction that can be encoded is respelled as code, by recursion over the constructs. -/
theorem respells_of_encodable (few : T.length < UInt32.size) (anonymous : ∀ s ∈ T, IsAnonymous s)
    {node : Node} (encodable : node.Encodable Index.IsPosition SignatureRef.IsInline depth) :
    Respells T depth node := by
  have numeric (i : Index) (position : i.IsPosition) : i.IsNumber := position.isNumber
  intro bytes settled short
  induction encodable generalizing bytes with
  | @instr depth op args memArg listed notEnd notElse notCall operands =>
    obtain ⟨bs, encodes, rereads⟩ := exists_operands (T := T) notCall operands
    have notBlock : op.immediate ≠ .block := fun kind => by
      rw [kind] at operands
      cases operands
    rw [← Encode.instruction_respelled, respelled, Encode.instruction_instr,
      encode_lift (encode_plain listed notEnd encodes)] at settled
    cases settled
    rw [List.length_cons] at short
    exact ⟨op, listed, notEnd, notElse, bs, rfl,
      codes_plain listed notBlock notEnd encodes (rereads (by omega))⟩
  | block nested inside ih =>
    have grows := fun node listed => Encode.grows_instruction numeric (inside node listed)
    rw [Encode.instruction_block] at settled
    obtain ⟨bs, here, settled⟩ := (Encode.grows_of_all grows).of_bind
      (fun _ => Encode.grows_pure _) settled
    cases settled
    simp only [List.length_cons, List.length_append] at short
    have codes := codes_of_respells grows ih here (by omega)
    exact ⟨⟨0x02, none, "block"⟩, by decide, by decide, by decide, _, rfl,
      codes.block nested _ _ rfl rfl⟩
  | loop nested inside ih =>
    have grows := fun node listed => Encode.grows_instruction numeric (inside node listed)
    rw [Encode.instruction_loop] at settled
    obtain ⟨bs, here, settled⟩ := (Encode.grows_of_all grows).of_bind
      (fun _ => Encode.grows_pure _) settled
    cases settled
    simp only [List.length_cons, List.length_append] at short
    have codes := codes_of_respells grows ih here (by omega)
    exact ⟨⟨0x03, none, "loop"⟩, by decide, by decide, by decide, _, rfl,
      codes.loop nested _ _ rfl rfl⟩
  | @ifElse _ _ _ alternate _ nested whenTrue whenFalse ihTrue ihFalse =>
    have grows := fun node listed => Encode.grows_instruction numeric (whenTrue node listed)
    have grows' := fun node listed => Encode.grows_instruction numeric (whenFalse node listed)
    rw [Encode.instruction_ifElse] at settled
    obtain ⟨bs, here, settled⟩ := (Encode.grows_of_all grows).of_bind
      (fun _ => (Encode.grows_of_all grows').bind fun _ => Encode.grows_pure _) settled
    obtain ⟨bs', there, settled⟩ := (Encode.grows_of_all grows').of_bind
      (fun _ => Encode.grows_pure _) settled
    cases settled
    have empty : (respelledIn alternate).isEmpty = alternate.isEmpty := by cases alternate <;> rfl
    rw [← empty] at short ⊢
    change (_ :: _ :: (bs ++ alternateBytes (respelledIn alternate) bs' ++ [endByte])).length < _ at short
    simp only [List.length_cons, List.length_append] at short
    have short' : bs'.length < UInt32.size := by
      cases alternate with
      | nil => cases there; decide
      | cons node nodes =>
        change _ + (bs'.length + 1) + _ + _ + _ < _ at short
        omega
    have codes := codes_of_respells grows ihTrue here (by omega)
    have codes' := codes_of_respells grows' ihFalse there short'
    exact ⟨⟨0x04, none, "if"⟩, by decide, by decide, by decide, _, rfl,
      codes.ifElse nested codes' _ _ rfl rfl⟩
  | @call depth i position =>
    obtain ⟨n, fits, same⟩ := exists_ofNat position
    have codes : CodesOne T depth (.call (.ofNat n)) _ _ :=
      codes_call fits (show ⟨0x10, none, "call"⟩ ∈ Opcode.table by decide) rfl rfl
    rw [← Encode.instruction_respelled, respelled, same, codes.encodes] at settled
    cases settled
    rw [respelled, same]
    exact ⟨_, by decide, by decide, by decide, _, rfl, codes⟩
  | callIndirect inline =>
    obtain ⟨s, rfl⟩ := inline
    rw [Encode.instruction_callIndirect] at settled
    obtain ⟨i, here, settled⟩ := (Encode.grows_typeIndex ⟨s, rfl⟩).of_bind
      (fun _ => Encode.grows_pure _) settled
    cases settled
    have placed := placed_of_typeIndex anonymous here
    exact ⟨⟨0x11, none, "call_indirect"⟩, by decide, by decide, by decide, _, rfl,
      codes_callIndirect placed (Nat.lt_trans (lt_of_placed placed) few) (by decide) rfl⟩

/-! ## Expressions -/

/-- A respelled expression is encoded as the expression. -/
theorem expressionBytes_respelledIn (nodes : List Node) :
    expressionBytes T (respelledIn nodes) = expressionBytes T nodes := by
  rw [expressionBytes, Encode.instructions_respelledIn, expressionBytes]

theorem expressionBytes_of_settled {nodes : List Node} {bytes : List UInt8} {u : TypeTable}
    (settled : Encode.expression nodes (typeTable T) = .ok (bytes, u)) :
    expressionBytes T nodes = bytes := by
  rw [expressionBytes]
  cases written : Encode.instructions nodes (typeTable T) with
  | ok r =>
    rw [Encode.expression, encode_bind written] at settled
    cases settled
    rfl
  | error e => simp [Encode.expression, bind, StateT.bind, written, Except.bind] at settled

/-- What is written of an expression, against a type section that has all its signatures, is decoded to
it in the spelling of the decoder. -/
theorem isExpression_of_settled (few : T.length < UInt32.size) (anonymous : ∀ s ∈ T, IsAnonymous s)
    {nodes : List Node} (encodable : EncodableIn Index.IsPosition SignatureRef.IsInline nodes)
    {bytes : List UInt8} (settled : Encode.expression nodes (typeTable T) = .ok (bytes, typeTable T))
    (short : bytes.length < UInt32.size) : IsExpression T (respelledIn nodes) := by
  have grows := fun node listed => Encode.grows_instruction
    (fun _ position => Index.IsPosition.isNumber position) (encodable node listed)
  obtain ⟨bs, here, settled⟩ := (Encode.grows_of_all grows).of_bind
    (fun _ => Encode.grows_pure _) settled
  cases settled
  rw [List.length_append] at short
  exact ⟨bs, codes_of_respells grows
    (fun node listed => respells_of_encodable few anonymous (encodable node listed)) here (by omega)⟩

end Decode

end Binary

end WasmEngine
