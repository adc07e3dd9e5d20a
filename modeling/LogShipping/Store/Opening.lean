import LogShipping.Config
import LogShipping.Disk.Database

/-!
# Opening stores

The store that a configuration asks for. A store in memory starts empty; a store in a file has the
rows that the file holds, and the folders on the way to the file are made if they are missing.
-/

namespace LogShipping.Store

/-- Opens the store of a configuration. What was made on the way stays if that fails. -/
def openFor (c : Config) (d : Disk) : Except Error Store × Disk :=
  match c.store.backend with
  | .memory => (.ok { engine := Backend.memory.engine }, d)
  | .sqlite =>
    match d.makeParents c.storePath with
    | .error fault => (.error (.io fault.message), d)
    | .ok d =>
      match d.openDatabase c.storePath with
      | (.error fault, d) => (.error (.storage (.stated fault.message)), d)
      | (.ok rows, d) => (.ok { engine := Backend.sqlite.engine, rows := rows }, d)

/-- The disk after the store of a configuration has been closed. -/
def closeFor (c : Config) (s : Store) (d : Disk) : Disk :=
  match c.store.backend with
  | .memory => d
  | .sqlite => d.closeDatabase c.storePath s.rows

/-- Closes the store of a configuration and opens it again. A failure that the store suffers lasts. -/
def reopenFor (c : Config) (s : Store) (d : Disk) : Except Error Store × Disk :=
  let (fresh, d) := openFor c (closeFor c s d)
  (fresh.map fun fresh => { fresh with outage := s.outage }, d)

end LogShipping.Store
