import LogShipping.Binary
import LogShipping.Checksum
import LogShipping.Key

/-!
# Log entries

An entry is what nodes replicate: a list of mutations under one log id, stamped with the time and
the originator of the commit. In the log partition an entry is kept as a stored record, which is the
entry's octets behind their checksum; a page of the log travels as a `Chunk`.
-/

namespace LogShipping

open Binary

/-! ## Mutations and entries -/

/-- A write or a removal of one key. -/
structure Mutation where
  /-- The key written or removed. -/
  key : Bytes
  /-- The value written; unused by a removal. -/
  value : Bytes := []
  /-- Whether the key is removed. -/
  isDelete : Bool := false
  deriving DecidableEq, Repr

namespace Mutation

/-- A write. -/
def put (key value : Bytes) : Mutation := ⟨key, value, false⟩

/-- A removal. -/
def delete (key : Bytes) : Mutation := ⟨key, [], true⟩

/-- The partition that the mutation touches. -/
def partition? (m : Mutation) : Option Partition := Key.partition? m.key

/-- The sequence number of a record that the mutation writes. -/
def recordSequence? (m : Mutation) : Option UInt64 :=
  if !m.isDelete && m.partition? == some .record then Key.sequence? m.key else none

/-- The written form of a mutation. -/
def codec : Codec Mutation :=
  (Codec.octets.pair (Codec.octets.pair Codec.truth)).via (fun m => (m.key, m.value, m.isDelete))
    fun (key, value, isDelete) => ⟨key, value, isDelete⟩

end Mutation

/-- The unit of replication: an ordered list of mutations. -/
structure Entry where
  /-- The position in the log; 0 before the commit. -/
  id : LogId := 0
  /-- The time of the commit; 0 before it. -/
  timestamp : Instant := 0
  /-- Who asked for the change. -/
  updater : String
  /-- The mutations, in order. -/
  items : List Mutation := []
  deriving DecidableEq, Repr

namespace Entry

/-- The entry with one more mutation at its end. -/
def push (e : Entry) (m : Mutation) : Entry := { e with items := e.items ++ [m] }

/-- The written form of an entry. -/
def codec : Codec Entry :=
  (Codec.word64.pair (Codec.word64.pair (Codec.text.pair (Codec.list Mutation.codec)))).via
    (fun e => (e.id, e.timestamp, e.updater, e.items))
    fun (id, timestamp, updater, items) => ⟨id, timestamp, updater, items⟩

end Entry

/-! ## Stored records -/

namespace Stored

/-- Why a value of the log partition is not a stored record. -/
inductive Fault where
  /-- The frame around the entry cannot be read. -/
  | frame (fault : Binary.Fault)
  /-- The checksum is not that of the entry's octets. -/
  | checksum
  /-- The checksum holds, but the octets are no entry. -/
  | body (fault : Binary.Fault)
  deriving DecidableEq, Repr

/-- The text of a fault. -/
def Fault.message : Fault → String
  | .frame fault => s!"unreadable log record: {fault.message}"
  | .checksum => "log record checksum mismatch"
  | .body fault => s!"unreadable log entry body: {fault.message}"

/-- The frame of a stored record: a checksum, then the octets it covers. -/
def frame : Codec (UInt32 × Bytes) := Codec.word32.pair Codec.octets

/-- The stored record of an entry. -/
def encode (e : Entry) : Bytes :=
  let body := Entry.codec.write e
  frame.write (Checksum.crc32 body, body)

/-- The entry of a stored record. -/
def decode (record : Bytes) : Except Fault Entry :=
  match frame.decode record with
  | .error fault => .error (.frame fault)
  | .ok (checksum, body) =>
    if Checksum.crc32 body ≠ checksum then .error .checksum
    else
      match Entry.codec.decode body with
      | .error fault => .error (.body fault)
      | .ok e => .ok e

end Stored

/-! ## Pages of the log -/

/-- A page of the log, with the state of the node that served it. -/
structure Chunk where
  /-- The serving node's position. -/
  currid : LogId := 0
  /-- The serving node's clock. -/
  timestamp : Instant := 0
  /-- The entries of the page, in log order. -/
  entries : List Entry := []
  /-- Whether the page reaches `currid`. -/
  isCurrent : Bool := false
  deriving DecidableEq, Repr

namespace Chunk

/-- The empty page for a reader that has everything up to `currid`. -/
def heartbeat (currid : LogId) (now : Instant) : Chunk :=
  { currid := currid, timestamp := now, isCurrent := true }

/-- The id of the last entry. -/
def lastId? (c : Chunk) : Option LogId := c.entries.getLast?.map (·.id)

/-- The written form of a page. -/
def codec : Codec Chunk :=
  (Codec.word64.pair (Codec.word64.pair ((Codec.list Entry.codec).pair Codec.truth))).via
    (fun c => (c.currid, c.timestamp, c.entries, c.isCurrent))
    fun (currid, timestamp, entries, isCurrent) => ⟨currid, timestamp, entries, isCurrent⟩

end Chunk

end LogShipping
