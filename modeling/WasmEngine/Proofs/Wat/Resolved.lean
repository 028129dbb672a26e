import Mathlib
import WasmEngine.Proofs.Binary.TypeTables
import WasmEngine.Proofs.Embedding.Compiled
import WasmEngine.Proofs.Syntax.Equality
import WasmEngine.Proofs.Typing.ResolvedBodies
import WasmEngine.Wat.Parse

/-!
# Resolved modules have a binary form

Encoding fails at a name that was left in an index position, at a signature by reference that denotes no
type definition, and at an instruction without the arguments of its immediate.  A module whose fields have
numbers for references and signatures in place has none of these (`exists_encode`), and so has every module of
a text whose names are resolved (`Wat.encodes_of_resolve`), whether or not it is valid.
-/

namespace WasmEngine.Binary

open Decode Node

namespace Encode

variable {α β : Type}

/-- A step succeeds, whatever the type section holds so far. -/
def Total (x : EncodeM α) : Prop := ∀ t : TypeTable, ∃ a t', x t = .ok (a, t')

variable {x : EncodeM α} {f : α → EncodeM β}

theorem Grows.total (grows : Grows x) : Total x := fun t =>
  let ⟨a, t', here, _⟩ := grows t
  ⟨a, t', here⟩

/-- Encodings in sequence are total when both parts are. -/
theorem Total.bind (first : Total x) (rest : ∀ a, Total (f a)) : Total (x >>= f) := by
  intro t
  obtain ⟨a, t', here⟩ := first t
  obtain ⟨b, t'', there⟩ := rest a t'
  exact ⟨b, t'', (encode_bind here).trans there⟩

theorem total_pure (a : α) : Total (pure a : EncodeM α) := (grows_pure a).total

theorem total_get : Total (get : EncodeM TypeTable) := fun t => ⟨t, t, rfl⟩

theorem total_lift {r : Except EncodeError α} (succeeds : ∃ a, r = .ok a) :
    Total (liftM r : EncodeM α) :=
  let ⟨_, here⟩ := succeeds
  (grows_lift here).total

/-- Encoding a list is total when encoding each element is. -/
theorem total_mapM {g : α → EncodeM β} {as : List α} (each : ∀ a ∈ as, Total (g a)) :
    Total (as.mapM g) := by
  induction as with
  | nil => exact total_pure []
  | cons a as ih =>
    obtain ⟨first, others⟩ := List.forall_mem_cons.1 each
    rw [List.mapM_cons]
    exact first.bind fun b => (ih others).bind fun bs => total_pure _

section Fields

variable {ref : Index → Prop} (numeric : ∀ i, ref i → i.IsNumber)
include numeric

/-- Indices that are numbers are encoded. -/
theorem exists_indices {is : List Index} (all : ∀ i ∈ is, ref i) :
    ∃ bytes, indices is = .ok bytes := by
  obtain ⟨ns, numbers⟩ := indices_of_numeric numeric all
  exact ⟨_, by rw [indices, numbers]; rfl⟩

/-- An export of a number is encoded. -/
theorem exists_exportEntry {e : ModuleExport} (holds : ref e.descr.id) :
    ∃ bytes, exportEntry e = .ok bytes := by
  obtain ⟨n, number⟩ := index_of_numeric numeric holds
  exact ⟨_, by rw [exportEntry, number]; rfl⟩

theorem exists_startSection {starts : List Index} (all : ∀ i ∈ starts, ref i) :
    ∃ bytes, startSection starts = .ok bytes := by
  unfold startSection
  split
  · next i last =>
    obtain ⟨n, number⟩ := index_of_numeric numeric (all i (List.mem_of_getLast? last))
    exact ⟨_, by rw [number]; rfl⟩
  · exact ⟨[], rfl⟩

/-- Inline elements that are numbers make a segment. -/
theorem exists_inlineElements {t : TableDef} (all : ∀ i ∈ t.elements, ref i) (position : Nat) :
    ∃ segment, inlineElements position t = .ok segment := by
  obtain ⟨bytes, numbers⟩ := exists_indices numeric all
  unfold inlineElements
  split
  · exact ⟨none, rfl⟩
  · exact ⟨_, by rw [numbers]; rfl⟩

/-- An expression of encodable instructions is encoded. -/
theorem total_expression {nodes : List Node} (inside : EncodableIn ref SignatureRef.IsInline nodes) :
    Total (expression nodes) := (grows_expression numeric inside).total

variable {m : Module}
  (fields : AreFields ref SignatureRef.IsInline (EncodableIn ref SignatureRef.IsInline) m.fields)
include fields

/-- Each section can be written. -/
theorem total_module : Total (module (.ofModule m)) := by
  unfold module
  refine Total.bind (total_mapM fun i listed => ?_) fun importTypes => Total.bind
    (total_mapM fun f listed => ?_) fun funcTypes => Total.bind (total_mapM fun f listed => ?_)
    fun bodies => Total.bind total_get fun types => Total.bind (total_mapM fun g listed => ?_)
    fun globals => Total.bind (total_mapM fun e listed => total_lift ?_) fun exports => Total.bind
    (total_lift (exists_startSection numeric fun i listed => ?_)) fun start => Total.bind
    (total_mapM fun t listed => total_lift (exists_inlineElements numeric (fun i inside => ?_) _))
    fun inline => Total.bind (total_mapM fun e listed => ?_) fun elems => Total.bind
    (total_mapM fun d listed => ?_) fun data => total_pure _
  · obtain ⟨field, inside, same⟩ := List.mem_filterMap.1 listed
    cases fields field inside <;> cases same
    next written => exact (grows_importType written).total
  · obtain ⟨field, inside, same⟩ := List.mem_filterMap.1 listed
    cases fields field inside <;> cases same
    next signature _ => exact (grows_typeIndex signature).total
  · obtain ⟨field, inside, same⟩ := List.mem_filterMap.1 listed
    cases fields field inside <;> cases same
    next code => exact (total_expression numeric code).bind fun _ => total_pure _
  · obtain ⟨field, inside, same⟩ := List.mem_filterMap.1 listed
    cases fields field inside <;> cases same
    next code => exact (total_expression numeric code).bind fun _ => total_pure _
  · obtain ⟨field, inside, same⟩ := List.mem_filterMap.1 listed
    cases fields field inside <;> cases same
    next holds => exact exists_exportEntry numeric holds
  · obtain ⟨field, inside, same⟩ := List.mem_filterMap.1 listed
    cases fields field inside <;> cases same
    assumption
  · obtain ⟨field, member, same⟩ := List.mem_filterMap.1 (List.fst_mem_of_mem_zipIdx listed)
    cases fields field member <;> cases same
    next all => exact all i inside
  · obtain ⟨field, inside, same⟩ := List.mem_filterMap.1 listed
    cases fields field inside <;> cases same
    next holds code all =>
      exact (total_lift (index_of_numeric numeric holds)).bind fun _ =>
        (total_expression numeric code).bind fun _ =>
          (total_lift (exists_indices numeric all)).bind fun _ => total_pure _
  · obtain ⟨field, inside, same⟩ := List.mem_filterMap.1 listed
    cases fields field inside <;> cases same
    next holds code =>
      exact (total_lift (index_of_numeric numeric holds)).bind fun _ =>
        (total_expression numeric code).bind fun _ => total_pure _

end Fields

end Encode

/-- A module whose references are numbers and whose signatures stand in place has a binary form. -/
theorem exists_encode {m : Module}
    (fields : AreFields Index.IsNumber SignatureRef.IsInline
      (EncodableIn Index.IsNumber SignatureRef.IsInline) m.fields) : ∃ bytes, encode m = .ok bytes := by
  obtain ⟨bytes, t, written⟩ := Encode.total_module (fun _ number => number) fields
    ⟨(Encode.Fields.ofModule m).types.map (·.functype.funcType), (Encode.Fields.ofModule m).types.length⟩
  exact ⟨bytes, by rw [encode, StateT.run, written]; rfl⟩

end WasmEngine.Binary

/-! ## Modules of a text -/

namespace WasmEngine

open Node Outcome

/-- Resolving a program resolves its modules. -/
theorem Program.resolve_eq_ok {p q : Program} (resolved : p.resolve = .ok q) :
    Program.mapModules Module.resolve p.body = .ok q.body := by
  obtain ⟨body, mapped, same⟩ := bind_eq_ok_iff.1 resolved
  cases same
  exact mapped

/-- A module of a text has numbers in all index positions and signatures in place once its names are
resolved.  It has a binary form, and the checker finds no name, no missing index and no unknown
instruction in it. -/
theorem Wat.encodes_of_resolve {source : String} {p q : Program} (read : parse source = .ok p)
    (resolved : p.resolve = .ok q) {node : Node} (listed : node ∈ q.body) {m : Module}
    (here : node.module? = some m) :
    AreFields Index.IsNumber SignatureRef.IsInline
        (EncodableIn Index.IsNumber SignatureRef.IsInline) m.fields ∧
      (∃ bytes, Binary.encode m = .ok bytes) ∧
      ∀ e ∈ Typing.checkFunctions (.ofModule m) m, ¬ e.IsInternal := by
  obtain ⟨node', inside, n, there, settled⟩ :=
    Program.mem_of_mapModules (Program.resolve_eq_ok resolved) listed here
  obtain ⟨id, fields, rfl, spelled⟩ := encodable_of_parse read node' inside
  cases there
  have numbers := numbers_of_resolve settled spelled
  exact ⟨numbers, Binary.exists_encode numbers, Typing.internal_of_checkFunctions numbers⟩

/-! ## A text that names a type, a label and a function -/

/-- A function that leaves a block and calls itself, given its signature and the references to the block
and to itself. -/
def spinner (sig : SignatureRef) (out f : Index) : Module :=
  ⟨none, [
    .typeDef ⟨some (.ofString "t"), ⟨[], []⟩⟩,
    .func (.ofString "f") sig []
      [.block (.ofString "out") [.instr "br" none [.ofIndex out] none] none, .call f] none], none⟩

/-- The text of `spinner`. -/
def spinnerText : String :=
  "(module (type $t (func)) (func $f (type $t) block $out br $out end call $f))"

/-- `spinner` as it is read. -/
def namedSpinner : Module :=
  spinner (.ref (.identifier (.ofString "t"))) (.identifier (.ofString "out"))
    (.identifier (.ofString "f"))

/-- `spinner` with its names resolved. -/
def resolvedSpinner : Module := spinner (.inline ⟨[], []⟩) (.ofNat 0) (.ofNat 0)

theorem encodes_of_resolve_spinner : Wat.parse spinnerText = .ok ⟨[namedSpinner.toNode]⟩ ∧
    Program.resolve ⟨[namedSpinner.toNode]⟩ = .ok ⟨[resolvedSpinner.toNode]⟩ ∧
    AreFields Index.IsNumber SignatureRef.IsInline
      (EncodableIn Index.IsNumber SignatureRef.IsInline) resolvedSpinner.fields ∧
    (∃ bytes, Binary.encode resolvedSpinner = .ok bytes) ∧
    ∀ e ∈ Typing.checkFunctions (.ofModule resolvedSpinner) resolvedSpinner, ¬ e.IsInternal := by
  have read : Wat.parse spinnerText = .ok ⟨[namedSpinner.toNode]⟩ :=
    (Wat.parse_of_toList String.toList_ofList).trans (by decide +kernel)
  have resolved : Program.resolve ⟨[namedSpinner.toNode]⟩ = .ok ⟨[resolvedSpinner.toNode]⟩ := by rfl
  exact ⟨read, resolved, Wat.encodes_of_resolve read resolved (List.mem_singleton_self _)
    (Program.module?_toNode _)⟩

end WasmEngine
