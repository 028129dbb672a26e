import WasmEngine.Proofs.Binary.Instructions
import WasmEngine.Proofs.Wat.Sequences

/-!
# Texts are read with their literals

Every constant of a program that is read from a text has a literal of its type, and every instruction
has a binary form once its names are resolved.
-/

namespace WasmEngine.Wat

open Node Outcome

/-! ## Literals -/

/-- A constant that is read has a value. -/
theorem constantNode?_literal {t : Valtype} {raw : String} {literal : Node}
    (read : constantNode? (.literal t) raw = some literal) :
    ∃ v, Value.ofLiteral t literal = .ok v := by
  cases t <;> obtain ⟨v, -, rfl⟩ := Option.map_eq_some_iff.1 read <;> exact ⟨_, rfl⟩

/-- An instruction that is read has a literal if it is a constant. -/
theorem literals_of_parseOp {word : String} {site : SExpr} {i items : Items} {node : Node}
    (read : parseOp word site i = .ok (node, items)) : node.Every HasLiteral := by
  unfold parseOp at read
  split at read
  · cases read
  · next op found =>
    have listed := Opcode.mem_of_ofMnemonic? found
    split at read
    · next immediate =>
      cases read
      exact hasLiteral_of_plain listed (by rw [immediate]; rfl) _ _
    · next immediate =>
      cases read
      exact hasLiteral_of_plain listed (by rw [immediate]; rfl) _ _
    · cases read
    · next immediate =>
      split at read
      · cases read
      · obtain ⟨index, -, read⟩ := bind_eq_ok_iff.1 read
        split at read
        · cases read
          exact trivial
        · cases read
          exact hasLiteral_of_plain listed (by rw [immediate]; rfl) _ _
    · next immediate =>
      obtain ⟨⟨targets, rest⟩, -, read⟩ := bind_eq_ok_iff.1 read
      dsimp only at read
      split at read
      · cases read
      · cases read
        exact hasLiteral_of_plain listed (by rw [immediate]; rfl) _ _
    · obtain ⟨⟨signature, items⟩, -, read⟩ := bind_eq_ok_iff.1 read
      cases read
      exact trivial
    · next immediate =>
      obtain ⟨⟨memArg, rest⟩, -, read⟩ := bind_eq_ok_iff.1 read
      cases read
      exact hasLiteral_of_plain listed (by rw [immediate]; rfl) _ _
    all_goals
      split at read
      · cases read
      · split at read
        · cases read
        · split at read
          · next literal made =>
            cases read
            refine hasLiteral_instr listed fun t isLiteral => ?_
            rw [isLiteral] at made
            obtain ⟨v, value⟩ := constantNode?_literal made
            exact ⟨literal, v, rfl, value⟩
          · cases read

theorem closed_literals : Closed fun _ => EveryIn HasLiteral where
  nil _ := trivial
  append first others := everyIn_append.2 ⟨first, others⟩
  outer inside := inside
  op _ _ read := ⟨literals_of_parseOp read, trivial⟩
  block word label result _ inside := by
    unfold blockNode
    split
    · exact ⟨⟨trivial, inside⟩, trivial⟩
    · exact ⟨⟨trivial, inside⟩, trivial⟩
  ifElse label result _ whenTrue whenFalse := ⟨⟨trivial, whenTrue, whenFalse⟩, trivial⟩

theorem everyIn_zeroOffset : EveryIn HasLiteral zeroOffset :=
  ⟨fun _ => ⟨_, _, rfl, rfl⟩, trivial⟩

/-- Every constant of a program that is read from a text has a literal of its type. -/
theorem literals_of_parse {source : String} {p : Program} (read : parse source = .ok p) :
    EveryIn HasLiteral p.body := by
  refine everyIn_iff.2 fun node inside => ?_
  obtain ⟨id, fields, rfl, areFields⟩ := modules_of_parse closed_literals everyIn_zeroOffset read node
    inside
  refine everyIn_iff.2 fun field listed => ?_
  cases areFields field listed with
  | func _ literals | global literals | data _ literals | elem _ literals =>
    exact ⟨trivial, literals⟩
  | _ => trivial

/-! ## Binary forms -/

/-- A mnemonic without a point that is no renamed one has no other spelling. -/
theorem eq_of_normalizeMnemonic {m name : String} (same : Opcode.normalizeMnemonic m = name)
    (kept : name ∉ ["get_local", "set_local", "tee_local", "get_global", "set_global",
      "current_memory", "grow_memory"]) (noPoint : '.' ∉ name.toList) : m = name := by
  unfold Opcode.normalizeMnemonic at same
  split at same
  all_goals try exact absurd (same ▸ by decide) kept
  split at same
  · rw [← same, String.toList_append, String.toList_append] at noPoint
    exact absurd (List.mem_append_left _ (List.mem_append_right _ (by decide))) noPoint
  · exact same

/-- Instructions without a type are spelled by their names, those with later names apart. -/
theorem word_of_ofMnemonic? {word : String} {op : Opcode} (found : Opcode.ofMnemonic? word = some op)
    (object : op.object = none) (kept : op.name ∉ ["get_local", "set_local", "tee_local",
      "get_global", "set_global", "current_memory", "grow_memory"]) (noPoint : '.' ∉ op.name.toList) :
    word = op.name := by
  have named : Opcode.splitMnemonic (Opcode.normalizeMnemonic word) = (none, op.name) := by
    have same := List.find?_some found
    rw [Bool.and_eq_true, beq_iff_eq, beq_iff_eq, object] at same
    exact Prod.ext same.1.symm same.2.symm
  refine eq_of_normalizeMnemonic ?_ kept noPoint
  unfold Opcode.splitMnemonic at named
  split at named
  · split at named
    · cases named
    · exact (Prod.mk.inj named).2
  · exact (Prod.mk.inj named).2

/-- No word but the closing ones has a closing byte. -/
theorem notClosing_of_ofMnemonic? {word : String} {op : Opcode}
    (found : Opcode.ofMnemonic? word = some op) (notEnd : word ≠ "end") (notElse : word ≠ "else") :
    op.byte ≠ Binary.endByte ∧ op.byte ≠ Binary.elseByte := by
  have listed := Opcode.mem_of_ofMnemonic? found
  constructor
  · intro isEnd
    obtain ⟨object, name⟩ := Opcode.name_of_endByte op listed isEnd
    exact notEnd (name ▸ word_of_ofMnemonic? found object (by rw [name]; decide) (by rw [name]; decide))
  · intro isElse
    obtain ⟨object, name⟩ := Opcode.name_of_elseByte op listed isElse
    exact notElse (name ▸ word_of_ofMnemonic? found object (by rw [name]; decide) (by rw [name]; decide))

/-- A memory argument is read below `2 ^ 32`. -/
theorem takeMemArg_lt {m : MemArg} {es : List SExpr} {r : MemArg × List SExpr}
    (aligned : m.align < UInt32.size) (within : m.offset < UInt32.size)
    (taken : takeMemArg m es = .ok r) : r.1.align < UInt32.size ∧ r.1.offset < UInt32.size := by
  induction es generalizing m with
  | nil =>
    cases taken
    exact ⟨aligned, within⟩
  | cons e es ih =>
    unfold takeMemArg at taken
    split at taken
    · cases taken
      exact ⟨aligned, within⟩
    · split at taken
      · split at taken
        · next offset number => exact @ih ⟨m.align, offset⟩ aligned (lt_of_parseU32? number) taken
        · cases taken
      · split at taken
        · next bytes number =>
          have fits := lt_of_parseU32? (Option.filter_eq_some_iff.1 number).1
          exact @ih ⟨bytes.log2, m.offset⟩ (Nat.lt_of_le_of_lt (Nat.log2_le_self _) fits) within taken
        · cases taken
      · cases taken
        exact ⟨aligned, within⟩

theorem naturalAlignment_lt (op : Opcode) : naturalAlignment op < UInt32.size := by
  unfold naturalAlignment
  dsimp only
  split_ifs
  · decide
  · decide
  · decide
  · split <;> decide

/-- The targets that are taken are spelled indices. -/
theorem takeTargets_eq {es : List SExpr} {r : List Node × List SExpr}
    (taken : takeTargets es = .ok r) : ∃ is : List Index, (∀ i ∈ is, i.IsSpelled) ∧
      r.1 = is.map ofIndex := by
  induction es generalizing r with
  | nil =>
    cases taken
    exact ⟨[], nofun, rfl⟩
  | cons e es ih =>
    unfold takeTargets at taken
    split at taken
    · obtain ⟨i, index, taken⟩ := bind_eq_ok_iff.1 taken
      obtain ⟨⟨targets, rest⟩, others, taken⟩ := bind_eq_ok_iff.1 taken
      obtain ⟨is, all, rfl⟩ := ih others
      cases taken
      exact ⟨i :: is, List.forall_mem_cons.2 ⟨spelled_of_parseIndex index, all⟩, rfl⟩
    · cases taken
      exact ⟨[], nofun, rfl⟩

/-- An integer is read within its width. -/
theorem fits_of_parseInt? {bits : Nat} {s : String} {v : Int}
    (read : parseInt? (bits + 1) s = some v) : Leb128.Fits bits v := by
  have some_ := Nat.two_pow_pos bits
  have double : 2 ^ (bits + 1) = 2 * 2 ^ bits := Nat.pow_succ'
  unfold parseInt? at read
  dsimp only at read
  simp only [Nat.one_shiftLeft, Nat.add_sub_cancel] at read
  split at read
  · cases read
  · next n _ =>
    split at read
    · split at read
      · cases read
        constructor <;> omega
      · cases read
    · split at read
      · cases read
        have lower := Int.le_bmod (x := n) (m := 2 ^ (bits + 1)) (by omega)
        have upper := Int.bmod_lt (x := n) (m := 2 ^ (bits + 1)) (by omega)
        constructor <;> omega
      · cases read

/-- An instruction that is read is encodable. -/
theorem encodable_of_parseOp {word : String} {site : SExpr} {i items : Items} {node : Node}
    (notEnd : word ≠ "end") (notElse : word ≠ "else") (read : parseOp word site i = .ok (node, items))
    (depth : Nat) : node.Encodable Index.IsSpelled (fun _ => True) depth := by
  unfold parseOp at read
  split at read
  · cases read
  · next op found =>
    have listed := Opcode.mem_of_ofMnemonic? found
    obtain ⟨notEnd, notElse⟩ := notClosing_of_ofMnemonic? found notEnd notElse
    have plain {args : List Node} {memArg : Option MemArg} (notIndex : op.immediate ≠ .index)
        (operands : Node.Operands Index.IsSpelled op.immediate args memArg) :
        (plainNode op args memArg).Encodable Index.IsSpelled (fun _ => True) depth :=
      .instr listed notEnd notElse (Opcode.notCall_of_immediate op listed notIndex) operands
    split at read
    · next immediate =>
      cases read
      exact plain (by rw [immediate]; decide) (by rw [immediate]; exact .none)
    · next immediate =>
      cases read
      exact plain (by rw [immediate]; decide) (by rw [immediate]; exact .memoryReserved)
    · cases read
    · next immediate =>
      split at read
      · cases read
      · obtain ⟨index, spelled, read⟩ := bind_eq_ok_iff.1 read
        split at read
        · cases read
          exact .call (spelled_of_parseIndex spelled)
        · next notCall =>
          cases read
          refine .instr listed notEnd notElse (Bool.eq_false_iff.2 notCall) ?_
          rw [immediate]
          exact .index (spelled_of_parseIndex spelled)
    · next immediate =>
      obtain ⟨⟨targets, rest⟩, taken, read⟩ := bind_eq_ok_iff.1 read
      obtain ⟨is, all, rfl⟩ := takeTargets_eq taken
      dsimp only at read
      split at read
      · cases read
      · next some_ =>
        cases read
        refine plain (by rw [immediate]; decide) ?_
        rw [immediate]
        exact .brTable (fun none => some_ (by rw [none]; rfl)) all
    · obtain ⟨⟨signature, items⟩, -, read⟩ := bind_eq_ok_iff.1 read
      cases read
      exact .callIndirect trivial
    · next immediate =>
      obtain ⟨⟨memArg, rest⟩, taken, read⟩ := bind_eq_ok_iff.1 read
      cases read
      obtain ⟨aligned, within⟩ := takeMemArg_lt (m := ⟨naturalAlignment op, 0⟩)
        (naturalAlignment_lt op) (show 0 < UInt32.size by decide) taken
      refine plain (by rw [immediate]; decide) ?_
      rw [immediate]
      exact .memArg aligned within
    all_goals
      next immediate =>
        split at read
        · cases read
        · split at read
          · cases read
          · split at read
            · next literal made =>
              cases read
              rw [immediate] at made
              obtain ⟨v, number, rfl⟩ := Option.map_eq_some_iff.1 made
              refine plain (by rw [immediate]; decide) ?_
              rw [immediate]
              first
                | exact .i32 (fits_of_parseInt? number)
                | exact .i64 (fits_of_parseInt? number)
                | exact .f32 (parseFloat?_lt FloatFormat.proper_binary32 number)
                | exact .f64 (parseFloat?_lt FloatFormat.proper_binary64 number)
            · cases read

theorem closed_encodable : Closed fun depth nodes =>
    ∀ node ∈ nodes, node.Encodable Index.IsSpelled (fun _ => True) depth where
  nil _ := nofun
  append first others := List.forall_mem_append.2 ⟨first, others⟩
  outer inside node listed := (inside node listed).mono (Nat.le_succ _)
  op notEnd notElse read :=
    List.forall_mem_singleton.2 (encodable_of_parseOp notEnd notElse read _)
  block word label result nested inside := by
    refine List.forall_mem_singleton.2 ?_
    unfold blockNode
    split
    · exact .loop nested inside
    · exact .block nested inside
  ifElse label result nested whenTrue whenFalse :=
    List.forall_mem_singleton.2 (.ifElse nested whenTrue whenFalse)

theorem encodableIn_zeroOffset : EncodableIn Index.IsSpelled (fun _ => True) zeroOffset := by
  refine List.forall_mem_singleton.2 ?_
  have listed : (⟨0x41, some .i32, "const"⟩ : Opcode) ∈ Opcode.table := by decide
  exact .instr listed (by decide) (by decide) rfl (.i32 ⟨by decide, by decide⟩)

/-- The instructions of a program that is read from a text have a binary form once their names are
resolved. -/
theorem encodable_of_parse {source : String} {p : Program} (read : parse source = .ok p) :
    ∀ node ∈ p.body, ReadModule (EncodableIn Index.IsSpelled fun _ => True) node :=
  modules_of_parse closed_encodable encodableIn_zeroOffset read

end WasmEngine.Wat
