import LogShipping.Entry
import LogShipping.Store.Rows

/-!
# The batch of an entry

What an entry writes to the store, in order: its record, its place in the time index, and its
mutations.
-/

namespace LogShipping

/-- The write that a mutation stands for. -/
def Mutation.toOp (m : Mutation) : BatchOp :=
  if m.isDelete then .delete m.key else .put m.key m.value

namespace Entry

/-- The writes to the log partitions: the record and the place in the time index. -/
def recordOps (e : Entry) : List BatchOp :=
  [.put (Key.log e.id) (Stored.encode e), .put (Key.logTime e.timestamp e.id) []]

/-- The writes to the data partitions. -/
def dataOps (e : Entry) : List BatchOp := e.items.map Mutation.toOp

/-- All writes of the entry. -/
def ops (e : Entry) : List BatchOp := e.recordOps ++ e.dataOps

/-- The first mutation of a key that is not one of data. -/
def reserved? (e : Entry) : Option Mutation := e.items.find? fun item => !Key.isData item.key

end Entry

end LogShipping
