import BoaIdb.Sqlite.Tables

/-!
The files of large values, named by their contents.
-/

namespace BoaIdb.Sqlite

open OrdMap

/-- The files under `blobs/<db_hash>/`. -/
abbrev BlobFiles := OrderedMap BlobPath Bytes

/-- `INLINE_VALUE_THRESHOLD`. -/
def inlineValueThreshold : ℕ := 256 * 1024

def shouldExternalize (value : Bytes) : Bool := inlineValueThreshold < value.length

/-- The hexadecimal digits of a digest. -/
def hexEncode (digest : Bytes) : String :=
  String.ofList (digest.flatMap fun b =>
    [Nat.digitChar (b.toNat / 16), Nat.digitChar (b.toNat % 16)])

/-- `<xx>/<sha256>.bin`. -/
def relPath (path : BlobPath) : String :=
  String.ofList ((hexEncode path).toList.take 2) ++ "/" ++ hexEncode path ++ ".bin"

variable (sha256 : Bytes → Bytes)

/-- `BlobManager::store`: a file of this name is taken to hold the value already. -/
def BlobFiles.store (files : BlobFiles) (value : Bytes) : BlobPath × BlobFiles :=
  let path := sha256 value
  if files.contains path then (path, files) else (path, files.insert path value)

/-- `BlobManager::read`, which checks the contents against the name. -/
def BlobFiles.read (files : BlobFiles) (path : BlobPath) : Except BackendError Bytes :=
  match files.get? path with
  | none => .error (.io ("Failed to read blob " ++ relPath path ++
      ": No such file or directory (os error 2)"))
  | some data =>
      if sha256 data = path then .ok data
      else .error (.corrupted ("Blob hash mismatch: expected " ++ hexEncode (sha256 data) ++
        ".bin, got " ++ hexEncode path ++ ".bin"))

/-- `BlobManager::remove`. -/
def BlobFiles.remove (files : BlobFiles) (path : BlobPath) : BlobFiles := files.erase path

end BoaIdb.Sqlite
