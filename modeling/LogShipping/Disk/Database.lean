import LogShipping.Disk
import LogShipping.Disk.DatabaseName

/-!
# Databases on a disk

The path of a database is taken by its words: empty parts and single dots count for nothing and two
dots take the part before them back, whatever stands there. Each part must be a name that can be looked
up, and the whole path has to fit into a fixed room, as have the names of the files beside the database.
A file of no octets or of one counts as empty, and a database is made of it.
-/

namespace LogShipping.Disk

/-! ## Places of databases -/

/-- The longest path of a database. -/
def databasePathLimit : Nat := 504

/-- The longest path that is followed on the way to a database. -/
def databaseWayLimit : Nat := 511

/-- The end of the name of the longest-named file beside a database. -/
def journalEnd : String := "-journal"

/-- The place one part further on the way to a database. -/
def databaseStep? (d : Disk) (place : List String) (part : String) : Option (List String) :=
  if part = "" ∨ part = "." then some place
  else if part = ".." then some place.dropLast
  else
    let next := place ++ [part]
    if databaseWayLimit < pathSize next then none
    else
      match d.item? place with
      | some .folder => if nameLimit < part.utf8ByteSize then none else some next
      | some _ => none
      | none => some next

/-- The place of a database that a file holds. -/
def databasePlace? (d : Disk) (path : String) : Option (List String) := do
  let place ← (path.splitOn "/").foldlM (databaseStep? d) (d.startOf path)
  let parent ← d.item? place.dropLast
  match parent with
  | .folder => if place.isEmpty || databasePathLimit < pathSize place then none else some place
  | _ => none

/-! ## Opening and closing -/

/-- Why a database cannot be opened. -/
inductive DatabaseFault where
  /-- Its name means nothing. -/
  | badName (reason : String)
  /-- There is no file to open. -/
  | noFile (path : String)
  /-- The file holds something else. -/
  | notDatabase
  /-- It would have to be written and must not be. -/
  | readOnly
  deriving DecidableEq, Repr

/-- The text of a fault. -/
def DatabaseFault.message : DatabaseFault → String
  | .badName reason => reason
  | .noFile path => s!"unable to open database file: {path}"
  | .notDatabase => "file is not a database"
  | .readOnly => "attempt to write a readonly database"

/-- Makes a database of an empty file, or of nothing, at a place. The file is there even if that fails. -/
def makeDatabase (d : Disk) (n : DatabaseName) (place : List String) :
    Except DatabaseFault Rows × Disk :=
  let size := (place.getLast?.getD "").utf8ByteSize + journalEnd.utf8ByteSize
  if n.isReadOnly then (.error .readOnly, d.put place (.file []))
  else if nameLimit < size then (.error (.noFile n.path), d.put place (.file []))
  else (.ok ∅, d.put place (.database ∅ true))

/-- Opens the database of a name, which is made if there is nothing or an empty file. -/
def openNamed (d : Disk) (n : DatabaseName) : Except DatabaseFault Rows × Disk :=
  if n.isTransient then (if n.isReadOnly then .error .readOnly else .ok ∅, d)
  else
    match d.databasePlace? n.path with
    | none => (.error (.noFile n.path), d)
    | some place =>
      match d.item? place with
      | some .folder => (.error (.noFile n.path), d)
      | some (.database rows _) => (.ok rows, d.put place (.database rows true))
      | some (.file []) | some (.file [_]) => d.makeDatabase n place
      | some (.file _) => (.error .notDatabase, d)
      | none => if n.access = .create then d.makeDatabase n place else (.error (.noFile n.path), d)

/-- Opens a database. -/
def openDatabase (d : Disk) (name : String) : Except DatabaseFault Rows × Disk :=
  match DatabaseName.ofText name with
  | .error reason => (.error (.badName reason), d)
  | .ok n => d.openNamed n

/-- Closes a database that holds certain rows by now. -/
def closeDatabase (d : Disk) (name : String) (rows : Rows) : Disk :=
  match DatabaseName.ofText name with
  | .error _ => d
  | .ok n =>
    if n.isTransient then d
    else
      match d.databasePlace? n.path with
      | some place => d.put place (.database rows false)
      | none => d

end LogShipping.Disk
