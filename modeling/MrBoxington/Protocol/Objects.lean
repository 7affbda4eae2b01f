import MrBoxington.Protocol.Digest

/-!
# Records that name cache objects

An action result names the objects that an action left behind. Its metadata names
the captured output, and its output tree is made of directory objects.
-/

namespace MrBoxington.Protocol

/-- The result of an action. -/
structure ActionResult where
  action : Digest
  metadata : Option Digest
  outputRoot : Option Digest
  version : ℕ
deriving DecidableEq

/-- A directory inside a directory. -/
structure DirectoryNode where
  digest : Digest
  mode : ℕ
  name : String
deriving DecidableEq

/-- A file inside a directory. -/
structure FileNode where
  digest : Digest
  executable : Bool
  mode : ℕ
  name : String
deriving DecidableEq

/-- A symbolic link inside a directory. -/
structure SymlinkNode where
  mode : ℕ
  name : String
  target : String
deriving DecidableEq

/-- A directory object. -/
structure Directory where
  directories : List DirectoryNode
  files : List FileNode
  symlinks : List SymlinkNode
  version : ℕ
deriving DecidableEq

/-- What the compiler adapters record about an action. -/
structure RustcMetadata where
  version : ℕ
  kind : String
  stdout : Digest
  stderr : Digest
deriving DecidableEq

/-- The captured output that metadata names, whichever adapter wrote it. -/
structure CapturedOutput where
  stdout : Digest
  stderr : Digest
deriving DecidableEq

/-- How the JSON library reads records. -/
structure RecordJson where
  actionResult : Bytes → Option ActionResult
  directory : Bytes → Option Directory
  rustcMetadata : Bytes → Option RustcMetadata
  capturedOutput : Bytes → Option CapturedOutput

end MrBoxington.Protocol
