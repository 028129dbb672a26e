import WasmEngine.Binary.DecodeError
import WasmEngine.Binary.Decoder
import WasmEngine.Binary.Encode
import WasmEngine.Binary.Instructions
import WasmEngine.Binary.Layout
import WasmEngine.Binary.Sections
import WasmEngine.Bytes.Integers
import WasmEngine.Bytes.Reader
import WasmEngine.Bytes.Writer
import WasmEngine.Embedding.Config
import WasmEngine.Embedding.Engine
import WasmEngine.Embedding.Error
import WasmEngine.Embedding.Instantiate
import WasmEngine.Embedding.Session
import WasmEngine.Float.Arithmetic
import WasmEngine.Float.Format
import WasmEngine.Float.Spelling
import WasmEngine.Json
import WasmEngine.Json.Reader
import WasmEngine.Machine.Executor
import WasmEngine.Machine.Fault
import WasmEngine.Machine.Integer
import WasmEngine.Machine.Memory
import WasmEngine.Machine.Operator
import WasmEngine.Machine.Stack
import WasmEngine.Machine.Store
import WasmEngine.Machine.Value
import WasmEngine.Machine.ValueText
import WasmEngine.Opcode
import WasmEngine.Proofs.Binary.BodyPairing
import WasmEngine.Proofs.Binary.DecoderOptions
import WasmEngine.Proofs.Binary.Entries
import WasmEngine.Proofs.Binary.EntrySpelling
import WasmEngine.Proofs.Binary.FieldCode
import WasmEngine.Proofs.Binary.Literals
import WasmEngine.Proofs.Binary.NameSections
import WasmEngine.Proofs.Binary.NamedFunctions
import WasmEngine.Proofs.Binary.Nesting
import WasmEngine.Proofs.Binary.RoundTrip
import WasmEngine.Proofs.Binary.SectionOrder
import WasmEngine.Proofs.Binary.SectionTiling
import WasmEngine.Proofs.Binary.TypeIndices
import WasmEngine.Proofs.Bytes.ReaderSteps
import WasmEngine.Proofs.Bytes.Registers
import WasmEngine.Proofs.Embedding.Allocation
import WasmEngine.Proofs.Embedding.BinaryForms
import WasmEngine.Proofs.Embedding.BinaryInstances
import WasmEngine.Proofs.Embedding.Compiled
import WasmEngine.Proofs.Embedding.DefinedEntries
import WasmEngine.Proofs.Embedding.FailureTraces
import WasmEngine.Proofs.Embedding.IndexSpaces
import WasmEngine.Proofs.Embedding.InitialValues
import WasmEngine.Proofs.Embedding.Linked
import WasmEngine.Proofs.Embedding.NestingBound
import WasmEngine.Proofs.Embedding.RenamedAllocation
import WasmEngine.Proofs.Embedding.RenamedInstances
import WasmEngine.Proofs.Embedding.Requests
import WasmEngine.Proofs.Embedding.SharedStores
import WasmEngine.Proofs.Embedding.TextRoundTrip
import WasmEngine.Proofs.Embedding.TypeSafety
import WasmEngine.Proofs.Machine.Accesses
import WasmEngine.Proofs.Machine.CallFrames
import WasmEngine.Proofs.Machine.DepthBound
import WasmEngine.Proofs.Machine.Effects
import WasmEngine.Proofs.Machine.FrameStack
import WasmEngine.Proofs.Machine.IntegerInstructions
import WasmEngine.Proofs.Machine.Invocation
import WasmEngine.Proofs.Machine.Jumps
import WasmEngine.Proofs.Machine.Lifting
import WasmEngine.Proofs.Machine.MemorySizes
import WasmEngine.Proofs.Machine.OpenFrames
import WasmEngine.Proofs.Machine.Patches
import WasmEngine.Proofs.Machine.RenamedRuns
import WasmEngine.Proofs.Machine.Simulation
import WasmEngine.Proofs.Machine.Structured
import WasmEngine.Proofs.Machine.Termination
import WasmEngine.Proofs.Machine.TypedOperators
import WasmEngine.Proofs.Outcome
import WasmEngine.Proofs.Syntax.Children
import WasmEngine.Proofs.Syntax.EditedLists
import WasmEngine.Proofs.Syntax.NestedConstructs
import WasmEngine.Proofs.Syntax.RecordedWalks
import WasmEngine.Proofs.Syntax.Renaming
import WasmEngine.Proofs.Syntax.InliningWalks
import WasmEngine.Proofs.Syntax.SignatureInlining
import WasmEngine.Proofs.Syntax.Walks
import WasmEngine.Proofs.Typing.AlikeModules
import WasmEngine.Proofs.Typing.Decision
import WasmEngine.Proofs.Typing.Declarative
import WasmEngine.Proofs.Typing.ImportOrder
import WasmEngine.Proofs.Typing.IndexRanges
import WasmEngine.Proofs.Typing.NamedOffsets
import WasmEngine.Proofs.Typing.Operands
import WasmEngine.Proofs.Typing.ResolvedBodies
import WasmEngine.Proofs.Wat.FoldedInstructions
import WasmEngine.Proofs.Wat.InsertedGaps
import WasmEngine.Proofs.Wat.LiteralValues
import WasmEngine.Proofs.Wat.MemoryArguments
import WasmEngine.Proofs.Wat.NumberGrammar
import WasmEngine.Proofs.Wat.OpenConstructs
import WasmEngine.Proofs.Wat.RefusedConstructs
import WasmEngine.Proofs.Wat.Resolved
import WasmEngine.Proofs.Wat.SourcePositions
import WasmEngine.Syntax.Build
import WasmEngine.Syntax.EditScript
import WasmEngine.Syntax.Kind
import WasmEngine.Syntax.NameGenerator
import WasmEngine.Syntax.Node
import WasmEngine.Syntax.NodeJson
import WasmEngine.Syntax.NodeReader
import WasmEngine.Syntax.Resolution
import WasmEngine.Syntax.Traversal
import WasmEngine.Syntax.TypeReference
import WasmEngine.Syntax.Types
import WasmEngine.Text.Digits
import WasmEngine.Text.HexBytes
import WasmEngine.Text.Quoted
import WasmEngine.Text.Split
import WasmEngine.Text.Utf8
import WasmEngine.Typing.Check
import WasmEngine.Typing.Context
import WasmEngine.Typing.Validate
import WasmEngine.Wat.Error
import WasmEngine.Wat.Instruction
import WasmEngine.Wat.Items
import WasmEngine.Wat.Lexer
import WasmEngine.Wat.Number
import WasmEngine.Wat.Parse
import WasmEngine.Wat.SExpr
import WasmEngine.Wat.Span
