import WasmEngine.Bytes.Integers
import WasmEngine.Text.Digits

/-!
# Errors of the binary format

What can be wrong with the bytes of a module, and the offset at which it was noticed.
-/

namespace WasmEngine.Binary

/-- The deepest nesting of blocks that the text and binary readers accept. -/
def maxNesting : Nat := 256

/-- What is wrong with a binary module. -/
inductive DecodeErrorKind where
  | unexpectedEnd
  | magicHeader
  | unknownVersion
  | leb (cause : Leb128.Error)
  | unexpectedSection (id : Nat)
  | unexpectedInstruction (byte : Nat)
  | signatureNotFound (index : Nat)
  | callIndirectSignatureNotFound (index : Nat)
  | codeNotFound (index : Nat)
  | zeroFlagExpected
  | entryNotFound (index : Nat) (space : String)
  | unexpectedValtype (byte : Nat)
  | unexpectedBlocktype (byte : Nat)
  | invalidMutability (byte : Nat)
  | unsupportedType (byte : Nat)
  | unknownImportKind (byte : Nat)
  | unknownExportKind (byte : Nat)
  | unknownElementType (byte : Nat)
  | unknownLimitType (byte : Nat)
  | dataOffset
  | tooManyLocals
  | nestingTooDeep (limit : Nat)
  | invalidUtf8
  | sizeMismatch (what : String) (declared consumed : Nat)
  deriving DecidableEq, Repr

/-- The text of an error without its place. -/
def DecodeErrorKind.message : DecodeErrorKind → String
  | unexpectedEnd => "unexpected end"
  | magicHeader => "magic header not detected"
  | unknownVersion => "unknown binary version"
  | leb cause => cause.message
  | unexpectedSection id => s!"Unexpected section: {Text.hex0x id}"
  | unexpectedInstruction byte => s!"Unexpected instruction: {Text.hex0x byte}"
  | signatureNotFound index => s!"function signature not found ({index})"
  | callIndirectSignatureNotFound index => s!"call_indirect signature not found ({index})"
  | codeNotFound index => s!"func {Text.hex0x index} code not found"
  | zeroFlagExpected => "zero flag expected"
  | entryNotFound index space => s!"entry not found at index {index} in {space} section"
  | unexpectedValtype byte => s!"Unexpected valtype: {Text.hex0x byte}"
  | unexpectedBlocktype byte => s!"Unexpected blocktype: {Text.hex0x byte}"
  | invalidMutability byte => s!"Invalid mutability: {Text.hex0x byte}"
  | unsupportedType byte => s!"Unsupported type: {Text.hex0x byte}"
  | unknownImportKind byte => s!"Unknown import description type: {Text.hex0x byte}"
  | unknownExportKind byte => s!"Unknown export description type: {Text.hex0x byte}"
  | unknownElementType byte => s!"Unknown element type in table: {Text.hex0x byte}"
  | unknownLimitType byte => s!"Unknown limit type: {Text.hex0x byte}"
  | dataOffset => "data section offset must be a single instruction"
  | tooManyLocals => "too many locals"
  | nestingTooDeep limit => s!"blocks nested deeper than {limit}"
  | invalidUtf8 => "invalid UTF-8 encoding"
  | sizeMismatch what declared consumed =>
    s!"{what} size mismatch: expected to end at {Text.hex0x declared}, ended at {Text.hex0x consumed}"

/-- A failure and the byte offset at which it was noticed. -/
structure DecodeError where
  kind : DecodeErrorKind
  offset : Nat
  deriving DecidableEq, Repr

/-- The text of an error with its place. -/
def DecodeError.message (e : DecodeError) : String :=
  s!"{e.kind.message} (at offset {Text.hex0x e.offset})"

end WasmEngine.Binary
