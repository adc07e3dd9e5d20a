import LogShipping.Store.Rows
import LogShipping.Text.Utf8

/-!
# Disks

Folders, files and databases at places, and the paths that lead to them. A path starts at the root or
at the present folder; every part of it but the last must be a folder, and so must the last if a slash
follows it. Paths and the names in them are limited in length. What goes wrong is told in the words of
the operating system.
-/

namespace LogShipping

/-! ## Faults -/

/-- Why something cannot be done with a file. -/
inductive FileFault where
  | missing
  | notFolder
  | isFolder
  /-- A name, or the whole path, is too long. -/
  | nameTooLong
  /-- A name holds the character that ends it. -/
  | badName
  /-- The content is not text. -/
  | notText
  deriving DecidableEq, Repr

/-- The text of a fault. -/
def FileFault.message : FileFault → String
  | .missing => "No such file or directory (os error 2)"
  | .notFolder => "Not a directory (os error 20)"
  | .isFolder => "Is a directory (os error 21)"
  | .nameTooLong => "File name too long (os error 36)"
  | .badName => "file name contained an unexpected NUL byte"
  | .notText => "stream did not contain valid UTF-8"

/-! ## Disks -/

/-- What stands at a place. -/
inductive DiskItem where
  | folder
  | file (content : Bytes)
  | database (rows : Rows) (inUse : Bool)

/-- A disk. -/
structure Disk where
  /-- What stands at each place below the root. -/
  items : Std.ExtTreeMap (List String) DiskItem := ∅
  /-- The present folder. -/
  present : List String := []

namespace Disk

/-- Whether a database in use stands at a place. -/
def hasDatabaseInUse (d : Disk) (place : List String) : Bool :=
  match d.items[place]? with
  | some (.database _ inUse) => inUse
  | _ => false

/-- The ends of the names of the files that stand beside a database in use. -/
def companionEnds : List String := ["-wal", "-shm"]

/-- Whether a place is that of a file beside a database in use. -/
def isCompanion (d : Disk) (place : List String) : Bool :=
  let name := (place.getLast?.getD "").toList
  companionEnds.any fun ending =>
    let stem := name.take (name.length - ending.length)
    name == stem ++ ending.toList &&
      d.hasDatabaseInUse (place.dropLast ++ [String.ofList stem])

/-- What stands at a place. -/
def item? (d : Disk) (place : List String) : Option DiskItem :=
  if place.isEmpty then some .folder
  else if d.isCompanion place then some (.file [])
  else d.items[place]?

/-- The disk with something at a place. -/
def put (d : Disk) (place : List String) (item : DiskItem) : Disk :=
  { d with items := d.items.insert place item }

/-- The folder at a place. -/
def checkFolder (d : Disk) (place : List String) : Except FileFault Unit :=
  match d.item? place with
  | some .folder => .ok ()
  | some _ => .error .notFolder
  | none => .error .missing

/-! ## Paths -/

/-- The longest name, in octets. -/
def nameLimit : Nat := 255

/-- The longest path, in octets. -/
def pathLimit : Nat := 4095

/-- The length of the path of a place from the root on, in octets. -/
def pathSize (place : List String) : Nat :=
  place.foldl (fun size name => size + name.utf8ByteSize + 1) 0

/-- The place that a path starts from. -/
def startOf (d : Disk) (path : String) : List String := if path.startsWith "/" then [] else d.present

/-- The parts of a path; a slash at the end counts as the folder itself. -/
def parts (path : String) : List String :=
  ((path.splitOn "/").filter (· ≠ "")) ++ (if path.endsWith "/" then ["."] else [])

/-- The place one part further on. -/
def step (place : List String) (part : String) : List String :=
  if part = "." then place else if part = ".." then place.dropLast else place ++ [part]

/-- The place that parts of a path lead to. -/
def follow (d : Disk) : (place : List String) → (parts : List String) → Except FileFault (List String)
  | place, [] => .ok place
  | place, part :: rest => do
    d.checkFolder place
    if nameLimit < part.utf8ByteSize then throw .nameTooLong
    d.follow (step place part) rest

/-- The place that a path leads to. -/
def place (d : Disk) (path : String) : Except FileFault (List String) :=
  if path.isEmpty then .error .missing
  else if path.contains '\x00' then .error .badName
  else if pathLimit < path.utf8ByteSize then .error .nameTooLong
  else d.follow (d.startOf path) (parts path)

/-- Whether something stands at the end of a path. -/
def reaches (d : Disk) (path : String) : Bool :=
  match d.place path with
  | .ok place => (d.item? place).isSome
  | .error _ => false

/-! ## Folders -/

/-- The folder in which the end of a path stands, as a path; the root has none. -/
def parentPath? (path : String) : Option (List String) :=
  match (parts path).filter (· ≠ ".") with
  | [] => none
  | named => some named.dropLast

/-- Makes the folders along parts of a path. -/
def makeFolders (d : Disk) : (place : List String) → (parts : List String) → Except FileFault Disk
  | _, [] => .ok d
  | place, part :: rest =>
    let next := step place part
    match d.item? next with
    | some .folder => d.makeFolders next rest
    | some _ => .error .notFolder
    | none =>
      if nameLimit < part.utf8ByteSize then .error .nameTooLong
      else (d.put next .folder).makeFolders next rest

/-- Makes the folders that lead to the end of a path. -/
def makeParents (d : Disk) (path : String) : Except FileFault Disk :=
  match parentPath? path with
  | some parents =>
    if parents.any (·.contains '\x00') then .error .badName
    else if pathLimit < pathSize parents then .error .nameTooLong
    else d.makeFolders (d.startOf path) parents
  | none => .ok d

/-! ## Files -/

/-- The text of a file. -/
def readText (d : Disk) (path : String) : Except FileFault String := do
  match d.item? (← d.place path) with
  | some (.file content) => (Utf8.decode content).mapError fun _ => .notText
  | some (.database ..) => throw .notText
  | some .folder => throw .isFolder
  | none => throw .missing

/-- Writes a text to a file, in place of what it held. -/
def writeText (d : Disk) (path content : String) : Except FileFault Disk := do
  let place ← d.place path
  match d.item? place with
  | some .folder => throw .isFolder
  | _ => return d.put place (.file (Bytes.ofString content))

end Disk

end LogShipping
