import LogShipping.Bytes

/-!
# Keys

The key space is split into partitions by the first octet of a key. A full key is that octet, a
sequence number in eight octets with the least one last, and any suffix; so bytewise order is
partition order, then numeric order, then suffix order. The key with sequence 0 and no suffix opens
its partition: it is the fence, never a key of data, and the fence of the next partition bounds the
partition from above. The last partition holds its fence only.
-/

namespace LogShipping

/-- The position of an entry in the log; the first entry has id 1. -/
abbrev LogId := UInt64

/-- Milliseconds since the epoch. -/
abbrev Instant := UInt64

/-! ## Partitions -/

/-- The partitions of the key space, in key order. -/
inductive Partition where
  /-- Log records, by log id. -/
  | log
  /-- The time index of the log, by timestamp and log id. -/
  | logTime
  /-- User profiles. -/
  | profile
  /-- Application records, by record id. -/
  | record
  /-- Opaque application data. -/
  | blob
  /-- The end of the key space. -/
  | sentinel
  deriving DecidableEq, Repr

namespace Partition

/-- All partitions, in key order. -/
def all : List Partition := [.log, .logTime, .profile, .record, .blob, .sentinel]

/-- The first octet of the partition's keys. -/
def tag : Partition → UInt8
  | .log => 0x10
  | .logTime => 0x11
  | .profile => 0x30
  | .record => 0x40
  | .blob => 0x50
  | .sentinel => 0xFF

/-- The partition whose keys begin with `octet`. -/
def ofTag? (octet : UInt8) : Option Partition := all.find? fun p => p.tag == octet

/-- The partition that follows in key order. -/
def next? : Partition → Option Partition
  | .log => some .logTime
  | .logTime => some .profile
  | .profile => some .record
  | .record => some .blob
  | .blob => some .sentinel
  | .sentinel => none

/-- The name of a partition in messages. -/
def name : Partition → String
  | .log => "LOG"
  | .logTime => "LOG_TIME"
  | .profile => "PROFILE"
  | .record => "RECORD"
  | .blob => "BLOB"
  | .sentinel => "END"

/-- Whether a partition holds application data. -/
def holdsData : Partition → Bool
  | .profile | .record | .blob => true
  | .log | .logTime | .sentinel => false

@[simp] theorem ofTag?_tag (p : Partition) : ofTag? p.tag = some p := by cases p <;> rfl

end Partition

/-! ## Keys -/

namespace Key

/-- The number of octets before the suffix. -/
def headLength : Nat := 9

/-- The key of a sequence number in a partition. -/
def encode (p : Partition) (sequence : UInt64) (suffix : Bytes) : Bytes :=
  p.tag :: Bytes.bigEndian 8 sequence.toNat ++ suffix

/-- The partition of a key. -/
def partition? (key : Bytes) : Option Partition := key.head?.bind Partition.ofTag?

/-- The sequence number of a key that has a full head. -/
def sequence? (key : Bytes) : Option UInt64 :=
  if key.length < headLength then none
  else some (UInt64.ofNat (Bytes.ofBigEndian ((key.drop 1).take 8)))

/-- The key that opens a partition. -/
def fence (p : Partition) : Bytes := encode p 0 []

/-- The least key above every key of a partition. -/
def upperBound (p : Partition) : Bytes :=
  match p.next? with
  | some next => fence next
  | none => List.replicate (headLength + 1) 0xFF

/-- The key of a log record. -/
def log (id : LogId) : Bytes := encode .log id []

/-- The key that lists a log entry by its timestamp. -/
def logTime (timestamp : Instant) (id : LogId) : Bytes :=
  encode .logTime timestamp (Bytes.bigEndian 8 id.toNat)

/-- The key of an application record. -/
def record (id : UInt64) : Bytes := encode .record id []

/-- Whether an entry may write the key: it has a full head, lies in a partition that holds data, and
is not the fence of that partition. -/
def isData (key : Bytes) : Bool :=
  match partition? key with
  | some p => p.holdsData && decide (headLength ≤ key.length) && key != fence p
  | none => false

@[simp] theorem partition?_encode (p : Partition) (sequence : UInt64) (suffix : Bytes) :
    partition? (encode p sequence suffix) = some p := by
  simp [partition?, encode]

@[simp] theorem sequence?_encode (p : Partition) (sequence : UInt64) (suffix : Bytes) :
    sequence? (encode p sequence suffix) = some sequence := by
  have hlen : ¬ (encode p sequence suffix).length < headLength := by
    simp [encode, headLength]
  have htake : ((encode p sequence suffix).drop 1).take 8 = Bytes.bigEndian 8 sequence.toNat := by
    simp [encode]
  have hlt : sequence.toNat < Bytes.values 8 := sequence.toNat_lt
  rw [sequence?, if_neg hlen, htake, Bytes.ofBigEndian_bigEndian, Nat.mod_eq_of_lt hlt]
  simp

end Key

end LogShipping
