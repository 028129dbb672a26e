import Mathlib
import WasmEngine.Proofs.Binary.Nesting
import WasmEngine.Proofs.Wat.Literals
import WasmEngine.Proofs.Wat.RefusedConstructs

/-!
# A bound on nesting

Programs that are read from texts or from bytes have no instruction inside more than 256 blocks, loops and
conditionals, and are refused for their nesting only where one more is opened (`nesting_bound`).
-/

namespace WasmEngine

open Node Outcome

/-- Nothing in a program is inside more constructs than a limit allows. -/
def Program.NestsWithin (limit : Nat) (p : Program) : Prop :=
  ∀ place ∈ (Node.program p.body).preorder, place.openConstructs ≤ limit

/-- A bound on the nesting of a program is one on its code. -/
theorem Program.nestsWithin_of_nests {limit : Nat} {p : Program} (nests : Nests limit (.program p.body)) :
    p.NestsWithin limit := by
  intro place below
  have bound := nests.openConstructs_le below
  rwa [List.countP_nil, Nat.zero_add] at bound

namespace Wat

/-- A field whose instructions have a binary form leaves room for all constructs that are allowed. -/
theorem nests_of_isField {ref : Index → Prop} {sig : SignatureRef → Prop} {sizes : List Nat} {field : Node}
    (isField : field.IsField ref sig (EncodableIn ref sig) sizes) : Nests Binary.maxNesting field := by
  have code {nodes : List Node} (inside : EncodableIn ref sig nodes) : CodeNests Binary.maxNesting nodes :=
    fun node mem => nests_of_encodable (inside node mem)
  cases isField with
  | typeDef t => exact nests_typeDef t
  | moduleImport => exact nests_moduleImport _
  | moduleExport => exact nests_moduleExport _
  | func _ inside => exact nests_func (code inside)
  | global inside => exact nests_global (code inside)
  | table => exact nests_table _
  | memory => exact nests_memory _
  | data _ inside => exact nests_data (code inside)
  | elem _ inside => exact nests_elem (code inside)
  | start => exact nests_start _

/-- Code that was read from a text nests within the limit. -/
theorem nestsWithin_of_parse {source : String} {p : Program} (read : parse source = .ok p) :
    p.NestsWithin Binary.maxNesting := by
  refine Program.nestsWithin_of_nests (.other rfl (nestIn_listed fun node inside => ?_))
  obtain ⟨id, fields, rfl, readFields⟩ := encodable_of_parse read node inside
  exact nests_module fun field mem => nests_of_isField (readFields field mem)

end Wat

/-- **Nesting is bounded.**  A program that is read from a text or from bytes has no instruction inside more
than 256 constructs.  A text is refused for its nesting at a construct that is opened inside 256 others, and
bytes at the byte that opens one.  Each field of a text and each sequence of instructions in bytes leaves no
construct open. -/
theorem nesting_bound (options : Binary.DecoderOptions) (bytes : List UInt8) (source : String) :
    (match Wat.parse source with
    | .ok p => p.NestsWithin 256 ∧
      ∃ tree, Wat.readAll source = .ok tree ∧ ∀ field ∈ Wat.sourceFields tree, Wat.Calm field
    | .error e => ∀ n, e.kind = .blocksTooDeep n → n = 256 ∧
      ∃ tree site, Wat.readAll source = .ok tree ∧ Wat.Opens 0 tree site 256 ∧ e.span = site.span) ∧
    (match Binary.decode options bytes with
    | .ok p => p.NestsWithin 256
    | .error x => ∀ n, x.kind = .nestingTooDeep n → n = 256 ∧
      ∃ d s b, Binary.Decode.ExpressionAt options bytes d ∧ Binary.Decode.Scans d.reader 0 s 256 ∧
        x.offset = s.pos ∧ bytes[x.offset]? = some b ∧ Binary.Decode.IsOpener b) ∧
    (∀ fuel field names read, Wat.parseField fuel field names = .ok read → Wat.Calm field) ∧
    ∀ d nodes d', Binary.Decode.expression d = .ok nodes d' →
      Binary.Decode.Ended 0 .finish d.reader d'.reader := by
  refine ⟨?_, ?_, fun fuel field names read ends => Wat.calm_of_parseField ends, fun d nodes d' ends =>
    Binary.Decode.scans_expression ends⟩
  · cases read : Wat.parse source with
    | ok p => exact ⟨Wat.nestsWithin_of_parse read, Wat.calm_of_parse read⟩
    | error e =>
      intro n deep
      obtain ⟨limit, tree, lists, site, opens, span⟩ := Wat.sited_of_parse read deep
      exact ⟨limit, tree, site, lists, opens, span⟩
  · cases decoded : Binary.decode options bytes with
    | ok p => exact Program.nestsWithin_of_nests (Binary.nests_of_decode decoded)
    | error x =>
      intro n deep
      have nesting : x.kind.isNesting = true := by
        rw [deep]
        rfl
      obtain ⟨limit, place⟩ := Binary.deep_of_decode decoded nesting
      rw [deep] at limit
      cases limit
      exact ⟨rfl, place⟩

/-- The bytes of a module with one function, which has some blocks one inside the other. -/
def manyBlocks (n : Nat) : List UInt8 :=
  [0x00, 0x61, 0x73, 0x6d, 0x01, 0x00, 0x00, 0x00, 0x01, 0x04, 0x01, 0x60, 0x00, 0x00, 0x03, 0x02, 0x01, 0x00,
    0x0a] ++ Leb128.encodeUnsigned (3 * n + 5) ++ [0x01] ++ Leb128.encodeUnsigned (3 * n + 2) ++ [0x00] ++
    (List.replicate n [Binary.blockByte, 0x40]).flatten ++ List.replicate (n + 1) Binary.endByte

/-- A text with a block, and bytes with one block too many. -/
theorem nesting_bound_manyBlocks :
    (∃ p, Wat.parse "(func block nop end)" = .ok p ∧ p.NestsWithin 256) ∧
    ∃ x, Binary.decode .default (manyBlocks 257) = .error x ∧ x.kind = .nestingTooDeep 256 ∧
      ∃ d s, Binary.Decode.ExpressionAt .default (manyBlocks 257) d ∧
        Binary.Decode.Scans d.reader 0 s 256 ∧ x.offset = s.pos := by
  have bound (bytes : List UInt8) := nesting_bound .default bytes "(func block nop end)"
  constructor
  · have read : (Wat.parse "(func block nop end)").isOk = true := by decide +kernel
    obtain ⟨texts, -⟩ := bound []
    cases here : Wat.parse "(func block nop end)" with
    | ok p =>
      rw [here] at texts
      exact ⟨p, rfl, texts.1⟩
    | error e =>
      rw [here] at read
      cases read
  · have refused : (match Binary.decode .default (manyBlocks 257) with
        | .ok _ => none
        | .error x => some x.kind) = some (.nestingTooDeep 256) := by decide +kernel
    -- nothing more is to be found by decoding the bytes again
    generalize manyBlocks 257 = bytes at refused ⊢
    obtain ⟨-, refusals, -, -⟩ := bound bytes
    cases decoded : Binary.decode .default bytes with
    | ok p =>
      rw [decoded] at refused
      cases refused
    | error x =>
      rw [decoded] at refused refusals
      have deep : x.kind = .nestingTooDeep 256 := Option.some.inj refused
      obtain ⟨-, d, s, -, reached, scans, offset, -, -⟩ := refusals 256 deep
      exact ⟨x, rfl, deep, d, s, reached, scans, offset⟩

end WasmEngine
