import SmallLisp.Failure
import SmallLisp.Path
import SmallLisp.Text.Lines
import SmallLisp.Text.Quoted
/-!
The files below a working directory, as a value, and the reading of texts from them.

What lies outside the working directory is taken to be directories that hold nothing else.
-/

namespace SmallLisp

/-- Why a file cannot be opened. -/
inductive FileFault
  | missing
  | notADirectory
  | isADirectory
  | nameTooLong
deriving DecidableEq, Repr

/-- The wording of a fault, for the file at a path. -/
def FileFault.report (fault : FileFault) (path : Path) : Text :=
  let reason : Text :=
    match fault with
    | .missing => "FileNotFoundError: [Errno 2] No such file or directory: "
    | .notADirectory => "NotADirectoryError: [Errno 20] Not a directory: "
    | .isADirectory => "IsADirectoryError: [Errno 21] Is a directory: "
    | .nameTooLong => "OSError: [Errno 36] File name too long: "
  reason ++ Text.quoted path.text

/-- A way to open the file at a path. -/
abbrev FileSource := Path → Except FileFault ByteArray

/-- Files with their contents, and directories, by their places below the working directory.  The
directories that files lie in need not be listed. -/
structure Files where
  contents : List (List Text × ByteArray) := []
  directories : List (List Text) := []

/-- What is at a place. -/
inductive FileEntry
  | file (bytes : ByteArray)
  | directory
  | absent

/-- The most bytes in the name of a file. -/
def maxNameBytes : Nat := 255

/-- The most bytes in the text of a path. -/
def maxPathBytes : Nat := 4095

namespace Files

/-- What is at a place below the working directory. -/
def entryAt (files : Files) (place : List Text) : FileEntry :=
  match files.contents.lookup place with
  | some bytes => .file bytes
  | none =>
      let places := files.contents.map Prod.fst ++ files.directories
      if place.isEmpty || places.any place.isPrefixOf then .directory else .absent

/-- What the remaining parts of a path lead to from a place; no place means outside the working
directory. -/
def walk (files : Files) : Option (List Text) → List Text → Except FileFault FileEntry
  | place, [] => .ok (place.elim .directory files.entryAt)
  | place, part :: rest =>
      match place.elim .directory files.entryAt with
      | .file _ => .error .notADirectory
      | .absent => .error .missing
      | .directory =>
          if maxNameBytes < part.byteCount?.getD 0 then .error .nameTooLong
          else if part = ".." then
            walk files (place.bind fun p => if p.isEmpty then none else some p.dropLast) rest
          else
            match place with
            | some p => walk files (some (p ++ [part])) rest
            | none => .error .missing

/-- The bytes of the file at a path. -/
def source (files : Files) : FileSource := fun path =>
  let length := path.text.byteCount?
  if length.isNone then .error .missing
  else if maxPathBytes < length.getD 0 then .error .nameTooLong
  else
    match files.walk (if path.root.isEmpty then some [] else none) path.parts with
    | .ok (.file bytes) => .ok bytes
    | .ok .directory => .error .isADirectory
    | .ok .absent => .error .missing
    | .error fault => .error fault

end Files

/-- The text that bytes encode, with line feeds as line ends. -/
def textOfBytes (bytes : ByteArray) : Except Failure Text :=
  match String.fromUTF8? bytes with
  | some text => .ok (Text.ofString text).withLineFeeds
  | none => .error .notUtf8

end SmallLisp
