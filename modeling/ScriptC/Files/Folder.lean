import ScriptC.Files.Basic
import ScriptC.Text.Utf8

/-!
A folder kept in memory. Paths are followed part by part: each part but the last has to lead to a
directory, `..` leads back, and what lies outside the folder is a directory in which nothing can be
found.
-/

namespace ScriptC

inductive Folder.Entry where
  | file (content : List UInt8)
  | directory
  deriving DecidableEq, Repr

/-- Files and directories under the parts of their paths. Directories that lead to an entry need no
entry of their own. -/
structure Folder where
  entries : List (List String × Folder.Entry) := []
  deriving Inhabited

namespace Folder

inductive Spot where
  | inside (parts : List String)
  | outside
  deriving DecidableEq, Repr

def longestName : Nat := 255

def pathLimit : Nat := 4096

def entry? (f : Folder) (parts : List String) : Option Entry :=
  match f.entries.lookup parts with
  | some e => some e
  | none =>
    if parts.isEmpty || f.entries.any (fun e => parts.isPrefixOf e.1) then some .directory else none

def Spot.entry? (f : Folder) : Spot → Option Entry
  | .inside parts => f.entry? parts
  | .outside => some .directory

def stays (part : String) : Bool := part == "" || part == "."

def Spot.above : Spot → Spot
  | .inside [] | .outside => .outside
  | .inside parts => .inside parts.dropLast

def Spot.enter (part : String) : Spot → Spot
  | .inside parts => .inside (parts ++ [part])
  | .outside => .outside

def locate (f : Folder) (spot : Spot) : List String → Except FileFault Spot
  | [] => .ok spot
  | part :: rest =>
    match spot.entry? f with
    | none => .error .missing
    | some (.file _) => .error .notDirectory
    | some .directory =>
      if stays part then f.locate spot rest
      else if part == ".." then f.locate spot.above rest
      else if part.utf8ByteSize > longestName then .error .nameTooLong
      else if spot == .outside then .error .missing
      else
        let next := spot.enter part
        match next.entry? f with
        | none => .error .missing
        | some _ => f.locate next rest

def start (path : String) : Except FileFault (Spot × List String) :=
  if path.toList.contains '\x00' then .error .malformedName
  else if path.isEmpty then .error .missing
  else if path.utf8ByteSize ≥ pathLimit then .error .nameTooLong
  else if path.startsWith "/" then .ok (.outside, path.splitOn "/")
  else .ok (.inside [], path.splitOn "/")

def read (f : Folder) (path : String) : Except FileError (List UInt8) :=
  let spot : Except FileFault Spot := do
    let (spot, parts) ← start path
    f.locate spot parts
  match spot with
  | .error fault => .error ⟨.opening, path, fault⟩
  | .ok spot =>
    match spot.entry? f with
    | some (.file content) => .ok content
    | some .directory => .error ⟨.reading, path, .isDirectory⟩
    | none => .error ⟨.opening, path, .missing⟩

def insert (f : Folder) (parts : List String) (e : Entry) : Folder :=
  { entries := (parts, e) :: f.entries.filter fun old => old.1 != parts }

/-- Where a file of a path would be written: the directory, and the name of the file in it. A name
that can only be a directory's is refused. -/
def target (f : Folder) (path : String) : Except FileFault Spot := do
  let (spot, parts) ← start path
  let named := (parts.reverse.dropWhile (· == "")).reverse
  let directory ← f.locate spot named.dropLast
  match directory.entry? f, named.getLast? with
  | some (.file _), _ => throw .notDirectory
  | _, none => throw .isDirectory
  | _, some name =>
    if parts.getLast? == some "" || stays name || name == ".." then throw .isDirectory
    else if name.utf8ByteSize > longestName then throw .nameTooLong
    else return directory.enter name

def write (f : Folder) (path text : String) : Except FileError Folder :=
  match f.target path with
  | .error fault => .error ⟨.opening, path, fault⟩
  | .ok .outside => .ok f
  | .ok (.inside parts) =>
    match f.entry? parts with
    | some .directory => .error ⟨.opening, path, .isDirectory⟩
    | _ => .ok (f.insert parts (.file (Text.bytesOf text)))

def ofFiles (given : List (String × List UInt8)) : Folder :=
  given.foldl
    (fun f (path, content) =>
      let parts := (path.splitOn "/").filter fun part => !stays part
      f.insert parts (if path.endsWith "/" then .directory else .file content))
    {}

def files (f : Folder) : List (String × List UInt8) :=
  f.entries.filterMap fun (parts, e) =>
    match e with
    | .file content => some ("/".intercalate parts, content)
    | .directory => none

def system : FileSystem (StateM Folder) where
  read path := return (← get).read path
  write path text := do
    match (← get).write path text with
    | .ok f => set f; return .ok ()
    | .error e => return .error e

end Folder
end ScriptC
