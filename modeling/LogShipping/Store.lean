import LogShipping.Error
import LogShipping.Store.Engine

/-!
# Stores

A store is the rows of a node, an engine that searches them, and possibly an outage. The store
answers calls one at a time; a call that meets the outage fails with the outage's reason and does
nothing. `Access` is a piece of work on a store: it may fail, and what it wrote before it failed
stays written.
-/

namespace LogShipping

/-! ## Outages -/

/-- The calls that a store answers. -/
inductive StoreCall where
  | get
  | put
  | delete
  | writeBatch
  | seekPrev
  | scan
  deriving DecidableEq, Repr

namespace StoreCall

/-- All calls. -/
def all : List StoreCall := [.get, .put, .delete, .writeBatch, .seekPrev, .scan]

/-- The name of a call. -/
def name : StoreCall → String
  | .get => "get"
  | .put => "put"
  | .delete => "delete"
  | .writeBatch => "write_batch"
  | .seekPrev => "seek_prev"
  | .scan => "scan_from"

end StoreCall

/-- A lasting failure of one kind of call. -/
structure Outage where
  /-- The calls that fail. -/
  call : StoreCall
  /-- What they report. -/
  reason : String
  /-- How many of them still succeed before the failure sets in. -/
  spared : Nat
  deriving DecidableEq, Repr

/-- A node's store. -/
structure Store where
  /-- How the rows are searched. -/
  engine : Engine
  /-- The content. -/
  rows : Rows := ∅
  /-- The failure that the store suffers, if any. -/
  outage : Option Outage := none

/-- Work on a store: what it wrote before failing stays. -/
abbrev Access := ExceptT Error (StateM Store)

namespace Store

/-! ## Calls -/

/-- Lets a call through, or fails it when the outage has set in. -/
def allow (call : StoreCall) : Access Unit := do
  match (← get).outage with
  | none => return ()
  | some outage =>
    if outage.call = call then
      match outage.spared with
      | 0 => throw (.storage (.stated outage.reason))
      | spared + 1 => modify fun s => { s with outage := some { outage with spared := spared } }

/-- The value of a key. -/
def lookup (key : Bytes) : Access (Option Bytes) := do
  allow .get
  return (← get).rows[key]?

/-- Writes one key. -/
def put (key value : Bytes) : Access Unit := do
  allow .put
  modify fun s => { s with rows := s.rows.apply (.put key value) }

/-- Removes one key. -/
def delete (key : Bytes) : Access Unit := do
  allow .delete
  modify fun s => { s with rows := s.rows.apply (.delete key) }

/-- Applies a batch as a whole. -/
def writeBatch (ops : List BatchOp) : Access Unit := do
  allow .writeBatch
  modify fun s => { s with rows := s.rows.applyAll ops }

/-- The last row whose key comes before `key`. -/
def seekPrev (key : Bytes) : Access (Option Row) := do
  allow .seekPrev
  let s ← get
  return s.engine.seekPrev s.rows key

/-- At most `limit` rows from `start` on that come before `stop`. -/
def scan (start stop : Bytes) (limit : UInt64) : Access (List Row) := do
  allow .scan
  let s ← get
  return s.engine.scan s.rows start stop limit

end Store

end LogShipping
