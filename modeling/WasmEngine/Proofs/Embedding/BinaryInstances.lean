import WasmEngine.Proofs.Embedding.BinaryForms
import WasmEngine.Proofs.Embedding.Requests
import WasmEngine.Proofs.Syntax.Equality
import WasmEngine.Wat.Parse

/-!
# Instances of binary forms

A text and its binary form have instances that answer alike (`Engine.answersAs_of_encode`).  The binary form groups
the definitions by kind, so that they have other addresses, and puts the elements inside of tables before all
element segments.
-/

namespace WasmEngine

open Outcome Typing Binary

namespace Engine

/-- Bytes have an instance in a store of its own that answers as another instance does, whatever the two are asked
for and however many steps their calls may take, in a view of the answers.  The embedding sees the same of both. -/
def AnswersAs {σ β : Type} (view : Except EngineError Answer → β) (env : Environment σ) (fuel : Nat)
    (imports : ImportObject) (config : Config) (w : σ) (bytes : List UInt8) (owner : Nat) (x : Store × σ) : Prop :=
  ∃ m' owner' x', compile config bytes = .ok m' ∧
    Running.instantiate env fuel imports config.refuseI64 m' (.empty, w) = .ok owner' x' ∧
    ∀ steps requests, (Running.serve env steps config.refuseI64 owner' requests x').1.map view =
        (Running.serve env steps config.refuseI64 owner requests x).1.map view ∧
      (Running.serve env steps config.refuseI64 owner' requests x').2.2 =
        (Running.serve env steps config.refuseI64 owner requests x).2.2

/-- Where a module of a text has an instance, its bytes have one that answers alike, but for the address in the
message about a wrong number of arguments. -/
theorem answersAs_of_encode {σ : Type} {source : String} {m : Module} (accepted : compileSource source = .ok m)
    (locals : ∀ f : Func, f.toNode ∈ m.fields → f.locals.length ≤ Decode.maxLocals ∧ f.localCount < UInt32.size)
    (offsets : ∀ target offset init, .data target offset init ∈ m.fields → offset.length = 1)
    (ordered : m.ElementsInOrder) {env : Environment σ} {fuel : Nat} {imports : ImportObject}
    (detached : imports.Detached) {config : Config} (complete : config.decoder.Complete) {w : σ} {owner : Nat}
    {x : Store × σ} (done : Running.instantiate env fuel imports config.refuseI64 m (.empty, w) = .ok owner x) :
    ∃ sections : List (UInt8 × List UInt8),
      encode m = .ok (Write.preamble ++ sections.flatMap fun s => Write.sectionOf s.1 s.2) ∧
      ((∀ s ∈ sections, s.2.length < UInt32.size) →
        AnswersAs (Except.mapError EngineError.unaddressed) env fuel imports config w
          (Write.preamble ++ sections.flatMap fun s => Write.sectionOf s.1 s.2) owner x) := by
  obtain ⟨n, resolved, valid⟩ := source_of_compileSource accepted
  have instantiable := Running.instantiable_of_instantiate (Module.hasSignature_of_resolve resolved)
    (fun decl t listed => Module.import_of_validate valid listed t) done
  obtain ⟨sections, written, reads⟩ := restates_of_encode accepted instantiable locals offsets
  refine ⟨sections, written, fun short => ?_⟩
  obtain ⟨few, compiles⟩ := reads short
  obtain ⟨m', compiled, restates⟩ := compiles config complete
  obtain ⟨ρ, x', done', renamed⟩ := Running.instantiate_of_restates restates (Module.validate_eq_ok_iff.1 valid).1
    ordered (Nat.le_of_lt (few .table)) detached done
  refine ⟨m', owner, x', compiled, done', fun steps requests => ?_⟩
  obtain ⟨answers, states⟩ := Running.serve_of_renamed env steps config.refuseI64 owner requests renamed
  exact ⟨answers, states.2⟩

end Engine

/-! ## A text that calls through a table -/

/-- An import object with the function of `dispatcher`. -/
def offersFunc : ImportObject := ImportObject.empty.add "m" "f" (.func ⟨[], []⟩ 0)

/-- The functions offered come with no address. -/
theorem detached_offersFunc : offersFunc.Detached := by
  rintro t ⟨module, name, found⟩
  rw [ImportObject.find?, offersFunc, ImportObject.add, List.lookup_cons] at found
  split at found <;> cases found

theorem answersAs_dispatcher : Engine.compileSource dispatcherText = .ok (dispatcher (.ofNat 0) (.ofNat 1)) ∧
    ∃ x, Running.instantiate Running.idle 9 offersFunc false (dispatcher (.ofNat 0) (.ofNat 1)) (.empty, ()) =
        .ok 0 x ∧
      Engine.AnswersAs (Except.mapError EngineError.unaddressed) Running.idle 9 offersFunc .default ()
        dispatcherBytes 0 x := by
  obtain ⟨x, done⟩ : ∃ x, Running.instantiate Running.idle 9 offersFunc false (dispatcher (.ofNat 0) (.ofNat 1))
      (.empty, ()) = .ok 0 x := ⟨_, rfl⟩
  have noData : ∀ target offset init, .data target offset init ∈ (dispatcher (.ofNat 0) (.ofNat 1)).fields →
      offset.length = 1 := by
    intro target offset init listed
    have here : (target, offset, init) ∈ (Encode.Fields.ofModule (dispatcher (.ofNat 0) (.ofNat 1))).data :=
      List.mem_filterMap.2 ⟨_, listed, rfl⟩
    cases here
  have complete : Config.default.decoder.Complete := DecoderOptions.complete_default
  obtain ⟨sections, written, answers⟩ := Engine.answersAs_of_encode compileSource_dispatcherText
    withinLimits_dispatcher.locals noData (by decide) detached_offersFunc complete done
  have bytes := Except.ok.inj (encode_dispatcher.symm.trans written)
  exact ⟨compileSource_dispatcherText, x, done, bytes ▸ answers (short_of_length bytes (by decide))⟩

/-! ## Texts whose binary forms answer differently -/

/-- A module that imports a table, calls what is in it, and has a global after its function. -/
def relay : Module :=
  ⟨none, [
    .moduleImport ⟨"m", "t", .table ⟨"anyfunc", ⟨1, none⟩, none, []⟩, none⟩,
    .func (.synthesized "func_0") (.inline ⟨[], []⟩) []
      [.instr "const" (some .i32) [.number ⟨0, "0"⟩] none, .callIndirect (.inline ⟨[], []⟩)] none,
    .global ⟨.i32, .const⟩ [.instr "const" (some .i32) [.number ⟨0, "0"⟩] none] (some (.synthesized "global_0")),
    .moduleExport ⟨"g", ⟨.func, .ofNat 0⟩⟩], none⟩

/-- The text of `relay`. -/
def relayText : String :=
  "(module (import \"m\" \"t\" (table 1 anyfunc)) (func (call_indirect (i32.const 0))) " ++
    "(global i32 (i32.const 0)) (export \"g\" (func 0)))"

/-- The binary form of `relay`. -/
def relayBytes : List UInt8 :=
  [0x00, 0x61, 0x73, 0x6d, 0x01, 0x00, 0x00, 0x00,
    0x01, 0x04, 0x01, 0x60, 0x00, 0x00,
    0x02, 0x09, 0x01, 0x01, 0x6d, 0x01, 0x74, 0x01, 0x70, 0x00, 0x01,
    0x03, 0x02, 0x01, 0x00,
    0x06, 0x06, 0x01, 0x7f, 0x00, 0x41, 0x00, 0x0b,
    0x07, 0x05, 0x01, 0x01, 0x67, 0x00, 0x00,
    0x0a, 0x09, 0x01, 0x07, 0x00, 0x41, 0x00, 0x11, 0x00, 0x00, 0x0b]

theorem written_relay :
    Engine.compileSource relayText = .ok relay ∧ encode relay = .ok relayBytes := by
  have parsed : Wat.parse relayText = .ok ⟨[relay.toNode]⟩ :=
    (Wat.parse_of_toList (Wat.toList_append_ofList String.toList_ofList _)).trans (by decide +kernel)
  constructor
  · rw [Engine.compileSource, Engine.parse, parsed]
    rfl
  · decide +kernel

/-- An import object that offers `relay` a table with one slot. -/
def offering (slot : Option Nat) : ImportObject :=
  ImportObject.empty.add "m" "t" (.table ⟨[slot], ⟨1, none⟩⟩)

/-- A module that has two constants for the offset of its data. -/
def repeated : Module :=
  let zero : Node := .instr "const" (some .i32) [.number ⟨0, "0"⟩] none
  ⟨none, [.memory ⟨⟨0, none⟩, some (.synthesized "memory_0")⟩, .data (.ofNat 0) [zero, zero] []], none⟩

/-- The text of `repeated`. -/
def repeatedText : String := "(module (memory 0) (data (offset (i32.const 0) (i32.const 0)) \"\"))"

/-- The binary form of `repeated`. -/
def repeatedBytes : List UInt8 :=
  [0x00, 0x61, 0x73, 0x6d, 0x01, 0x00, 0x00, 0x00,
    0x05, 0x03, 0x01, 0x00, 0x00,
    0x0b, 0x08, 0x01, 0x00, 0x41, 0x00, 0x41, 0x00, 0x0b, 0x00]

theorem written_repeated :
    Engine.compileSource repeatedText = .ok repeated ∧ encode repeated = .ok repeatedBytes := by
  have parsed : Wat.parse repeatedText = .ok ⟨[repeated.toNode]⟩ :=
    (Wat.parse_of_toList String.toList_ofList).trans (by decide +kernel)
  constructor
  · rw [Engine.compileSource, Engine.parse, parsed]
    rfl
  · decide +kernel

/-- A module with an element segment before a table that has another function in the same slot. -/
def crossed : Module :=
  let zero : Node := .instr "const" (some .i32) [.number ⟨0, "0"⟩] none
  ⟨none, [
    .elem (.ofNat 0) [zero] [.ofNat 0],
    .table ⟨"anyfunc", ⟨1, some 1⟩, some (.synthesized "table_0"), [.ofNat 1]⟩,
    .func (.synthesized "func_0") (.inline ⟨[], []⟩) [] [] none,
    .func (.synthesized "func_1") (.inline ⟨[], []⟩) [] [.instr "unreachable" none [] none] none,
    .func (.synthesized "func_2") (.inline ⟨[], []⟩) [] [zero, .callIndirect (.inline ⟨[], []⟩)] none,
    .moduleExport ⟨"t", ⟨.func, .ofNat 2⟩⟩], none⟩

/-- The text of `crossed`. -/
def crossedText : String :=
  "(module (elem (i32.const 0) 0) (table anyfunc (elem 1)) (func) (func unreachable) " ++
    "(func (call_indirect (i32.const 0))) (export \"t\" (func 2)))"

/-- The binary form of `crossed`. -/
def crossedBytes : List UInt8 :=
  [0x00, 0x61, 0x73, 0x6d, 0x01, 0x00, 0x00, 0x00,
    0x01, 0x04, 0x01, 0x60, 0x00, 0x00,
    0x03, 0x04, 0x03, 0x00, 0x00, 0x00,
    0x04, 0x05, 0x01, 0x70, 0x01, 0x01, 0x01,
    0x07, 0x05, 0x01, 0x01, 0x74, 0x00, 0x02,
    0x09, 0x0d, 0x02, 0x00, 0x41, 0x00, 0x0b, 0x01, 0x01, 0x00, 0x41, 0x00, 0x0b, 0x01, 0x00,
    0x0a, 0x10, 0x03, 0x02, 0x00, 0x0b, 0x03, 0x00, 0x00, 0x0b, 0x07, 0x00, 0x41, 0x00, 0x11, 0x00, 0x00, 0x0b]

theorem written_crossed :
    Engine.compileSource crossedText = .ok crossed ∧ encode crossed = .ok crossedBytes := by
  have parsed : Wat.parse crossedText = .ok ⟨[crossed.toNode]⟩ :=
    (Wat.parse_of_toList (Wat.toList_append_ofList String.toList_ofList _)).trans (by decide +kernel)
  constructor
  · rw [Engine.compileSource, Engine.parse, parsed]
    rfl
  · decide +kernel

namespace Engine

/-- An embedding whose functions do nothing and whose calls nest once. -/
def shallow : Environment Unit := ⟨2, fun _ _ => pure [], fun _ _ world => world⟩

/-- Settings of a decoder that passes over the code section. -/
def ignoringCode : Config := ⟨300, false, ⟨false, true, false, false⟩⟩

/-- The text of an answer that is an error. -/
def complaint : Except EngineError Answer → Option String
  | .ok _ => none
  | .error e => some e.message

variable (view : Except EngineError Answer → Except EngineError Answer) (imports : ImportObject) (config : Config)

/-- What an instance of a module in a store of its own says to requests. -/
def saidBy (requests : List Request) (m : Module) : Option (List (Option String)) :=
  match Running.instantiate shallow 9 imports config.refuseI64 m (.empty, ()) with
  | .error .. => none
  | .ok owner x => some ((Running.serve shallow 9 config.refuseI64 owner requests x).1.map (complaint ∘ view))

/-- What an instance of bytes says. -/
def saidTo (requests : List Request) (bytes : List UInt8) : Option (List (Option String)) :=
  (compile config bytes).toOption.bind (saidBy view imports config requests)

/-- A text has an instance that its bytes have no instance to answer as. -/
def Diverges (source : String) : Prop := ∃ m bytes owner x, compileSource source = .ok m ∧ encode m = .ok bytes ∧
  Running.instantiate shallow 9 imports config.refuseI64 m (.empty, ()) = .ok owner x ∧
  ¬ AnswersAs view shallow 9 imports config () bytes owner x

variable {view imports config}

/-- A module answers requests otherwise than its binary form where one of the answers is not the same. -/
theorem diverges_of_said {source : String} {m : Module} {bytes : List UInt8}
    (accepted : compileSource source = .ok m) (written : encode m = .ok bytes) (requests : List Request)
    (said : List (Option String)) (text : saidBy view imports config requests m = some said)
    (binary : saidTo view imports config requests bytes ≠ some said) : Diverges view imports config source := by
  unfold saidBy at text
  split at text
  · cases text
  · next owner x done =>
    refine ⟨m, bytes, owner, x, accepted, written, done, fun same => binary ?_⟩
    obtain ⟨m', owner', x', compiled, done', answers⟩ := same
    rw [saidTo, compiled, ← text]
    show saidBy view imports config requests m' = _
    rw [saidBy, done']
    show some _ = some _
    rw [← List.map_map, ← List.map_map, (answers 9 requests).1]

/-- Instances of texts and of their bytes diverge where a message names an address, where the decoder passes over
the code or refuses the offset of data, where a table that is offered holds an address, and where elements change
places. -/
theorem diverges_of_encode :
    Diverges id (offering none) .default relayText ∧
    Diverges (Except.mapError EngineError.unaddressed) (offering none) ignoringCode relayText ∧
    Diverges (Except.mapError EngineError.unaddressed) (offering (some 1)) .default relayText ∧
    Diverges (Except.mapError EngineError.unaddressed) .empty .default repeatedText ∧
    Diverges (Except.mapError EngineError.unaddressed) .empty .default crossedText := by
  refine ⟨?_, ?_, ?_, ?_, ?_⟩
  · exact diverges_of_said written_relay.1 written_relay.2 [.call "g" [.i32 0]]
      [some "Function 1 called with 1 arguments but 0 expected"] (by decide +kernel) (by decide +kernel)
  · exact diverges_of_said written_relay.1 written_relay.2 [.call "g" []]
      [some "Execution has been trapped: undefined element"] (by decide +kernel) (by decide +kernel)
  · exact diverges_of_said written_relay.1 written_relay.2 [.call "g" []]
      [some "Maximum call stack depth reached"] (by decide +kernel) (by decide +kernel)
  · exact diverges_of_said written_repeated.1 written_repeated.2 [] [] (by decide +kernel) (by decide +kernel)
  · exact diverges_of_said written_crossed.1 written_crossed.2 [.call "t" []]
      [some "Execution has been trapped: unreachable"] (by decide +kernel) (by decide +kernel)

end Engine

end WasmEngine
