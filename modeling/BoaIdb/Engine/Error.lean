import BoaIdb.Clone.Decode
import BoaIdb.Engine.KeyPath

/-!
The errors that the engine reports to script, and the texts of the errors below it.
-/

namespace BoaIdb

open Clone

/-- Errors with the names of their `DOMException`. -/
inductive IdbError
  | abort
  | constraint (msg : String)
  | dataClone (msg : String)
  | data (msg : String)
  | invalidAccess (msg : String)
  | invalidState (msg : String)
  | notFound (msg : String)
  | notReadable (msg : String)
  | syntaxError (msg : String)
  | readOnly
  | transactionInactive
  | unknown (msg : String)
  | version (msg : String)
  | quotaExceeded (needed available : ℕ)
  deriving DecidableEq, Repr

/-! ### Texts -/

def KeyError.text : KeyError → String
  | .invalidType msg => "Invalid key type: " ++ msg
  | .invalidValue msg => "Invalid key value: " ++ msg
  | .keyTooLarge limit actual =>
      s!"Key exceeds maximum allowed length of {limit} bytes (got {actual})"
  | .maxDepthExceeded limit => s!"Key array nesting depth exceeds maximum allowed of {limit}"
  | .invalidEncoding msg => "Corrupted key encoding: " ++ msg
  | .unexpectedEof => "Unexpected end of key buffer"

def KeyPathError.text : KeyPathError → String
  | .invalidSyntax msg => "Invalid key path syntax: " ++ msg
  | .emptyArray => "Key path array cannot be empty"
  | .cannotInjectIntoPrimitive => "Cannot inject key into primitive value"

/-- A checksum as `{:#010x}` shows it. -/
def hexWord (w : UInt32) : String :=
  let digits := Nat.toDigits 16 w.toNat
  "0x" ++ String.ofList (List.replicate (8 - digits.length) '0' ++ digits)

def ScError.text : ScError → String
  | .dataClone msg => "Data clone error: " ++ msg
  | .unsupportedVersion version => s!"Format version {version} is not supported (expected v1)"
  | .invalidMagic => "Invalid SCF magic bytes: expected 'IDB1'"
  | .checksumMismatch expected calculated =>
      let expected := hexWord expected
      let calculated := hexWord calculated
      s!"CRC32C checksum mismatch: expected {expected}, calculated {calculated}"
  | .maxDepthExceeded limit => s!"Value nesting depth exceeds maximum of {limit}"
  | .valueTooLarge limit actual =>
      s!"Serialized value size exceeds limit of {limit} bytes (got {actual})"
  | .invalidMemoRef idx => s!"Invalid memo reference ID: {idx}"
  | .unknownTag tag => "Unknown or reserved SCF tag: " ++ hexByte tag
  | .corruptedPayload msg => "Corrupted SCF payload: " ++ msg
  | .unexpectedEof => "Unexpected end of SCF stream"

/-- A sum that overflows is a panic, with this text. -/
def Clone.DecodeFailure.text : DecodeFailure → String
  | .error e => e.text
  | .overflow => "attempt to add with overflow"

def BackendError.text : BackendError → String
  | .constraint msg => "Constraint violation: " ++ msg
  | .notFound msg => "Entity not found: " ++ msg
  | .invalidRange => "Invalid key range"
  | .locked => "Database is locked by another process or transaction"
  | .corrupted msg => "Data corruption: " ++ msg
  | .io msg => "I/O error: " ++ msg
  | .quotaExceeded needed available =>
      s!"Storage quota exceeded: required {needed} bytes, available {available} bytes"
  | .internal msg => "Internal backend error: " ++ msg

/-! ### Conversions -/

/-- `From<KeyError>`. -/
def KeyError.toIdb (e : KeyError) : IdbError := .data e.text

/-- `backend_err`: constraint violations keep their kind. -/
def backendErr : BackendError → IdbError
  | .constraint msg => .constraint msg
  | other => .data ("Backend error: " ++ other.text)

end BoaIdb
