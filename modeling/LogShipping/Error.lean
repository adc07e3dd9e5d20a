import LogShipping.Message
import LogShipping.Text.Quoted

/-!
# Errors

Everything that can go wrong, by cause. A cause has one wording (`Error.message`) and one wire code
(`Error.code`); the code is all that a remote caller learns besides the wording, and it decides
whether a follower keeps tailing (`Error.isRecoverable`).
-/

namespace LogShipping

/-! ## Wire codes -/

/-- The kinds of failure that a reply can report by number. -/
inductive ErrorCode where
  | unknown
  | protocol
  | consistency
  | storage
  | notMaster
  | unauthorized
  | unknownCommand
  | transport
  | config
  deriving DecidableEq, Repr

namespace ErrorCode

/-- All codes, in the order of their numbers. -/
def all : List ErrorCode :=
  [.unknown, .protocol, .consistency, .storage, .notMaster, .unauthorized, .unknownCommand,
   .transport, .config]

/-- The number of a code on the wire. -/
def number : ErrorCode → UInt32
  | .unknown => 0
  | .protocol => 1
  | .consistency => 2
  | .storage => 3
  | .notMaster => 4
  | .unauthorized => 5
  | .unknownCommand => 6
  | .transport => 7
  | .config => 8

/-- The code of a number; a number that no code has is unknown. -/
def ofNumber (n : UInt32) : ErrorCode := (all.find? fun c => c.number == n).getD .unknown

/-- The name of a code in messages. -/
def name : ErrorCode → String
  | .unknown => "Unknown"
  | .protocol => "Protocol"
  | .consistency => "Consistency"
  | .storage => "Storage"
  | .notMaster => "NotMaster"
  | .unauthorized => "Unauthorized"
  | .unknownCommand => "UnknownCommand"
  | .transport => "Transport"
  | .config => "Config"

/-- A code with its number. -/
def label (c : ErrorCode) : String := s!"{c.name}({c.number})"

@[simp] theorem ofNumber_number (c : ErrorCode) : ofNumber c.number = c := by cases c <;> rfl

end ErrorCode

/-! ## Causes -/

/-- What is wrong with a configuration, or with the master that it leads to. -/
inductive ConfigFault where
  | emptyUrl
  | emptyBindAddress
  | emptySecret
  | masterAddressRequired
  | zeroReadLogLimit
  | zeroHostUpdateThreshold
  /-- The election does not come after the probe of all hosts. -/
  | electionThreshold (election hostUpdate : UInt32)
  /-- The configured peer is no master and names none. -/
  | noMasterNamed (peer : String)
  /-- The configured peer names a master that is none. -/
  | namedNoMaster (peer named : String)
  /-- A cause told in words. -/
  | stated (text : String)
  deriving DecidableEq, Repr

/-- What is wrong with a request. -/
inductive ProtocolFault where
  /-- An entry would write a key that is not one of data. -/
  | reservedKey (key : Bytes) (updater : String)
  /-- A master was sent what only followers take. -/
  | followersOnly (command : Command)
  /-- A message of another command than expected. -/
  | wrongCommand (expected found : Command)
  /-- The wire text is not that of a message. -/
  | body (fault : Message.BodyFault)
  | missingCommand
  | commandNotNumber
  /-- The endpoint does not serve the command. -/
  | notServed (command : Command) (endpoint : Endpoint)
  | bodyNotText
  /-- Header and body disagree. -/
  | commandMismatch (header body : Command)
  /-- A cause told in words. -/
  | stated (text : String)
  deriving DecidableEq, Repr

/-- What breaks the agreement between two logs. -/
inductive ConsistencyFault where
  /-- The reader has seen more than this node holds. -/
  | readerAhead (lastSeen position : LogId)
  /-- A master was asked to apply entries. -/
  | masterApplies
  /-- A page moved the position nowhere, and the reader is not up to date. -/
  | noProgress (peer : String) (position peerPosition : LogId)
  /-- A cause told in words. -/
  | stated (text : String)
  deriving DecidableEq, Repr

/-- What is wrong with the store or its content. -/
inductive StorageFault where
  /-- The newest local entry is not in the store. -/
  | entryMissing (id : LogId)
  /-- A log record cannot be read. -/
  | record (fault : Stored.Fault)
  /-- A log record holds the entry of another id. -/
  | misplaced (expected found : LogId)
  /-- The partition is the last one. -/
  | noSuccessor (partition : Partition)
  /-- The last key of a partition has no full head. -/
  | malformedKey (partition : Partition) (length : Nat)
  /-- Nothing of the partition lies before the next fence. -/
  | fenceMissing (partition : Partition)
  /-- The store gave a reason of its own. -/
  | stated (text : String)
  deriving DecidableEq, Repr

/-- Everything that can go wrong. -/
inductive Error where
  | config (fault : ConfigFault)
  /-- The configuration file is not one. -/
  | configParse (reason : String)
  | protocol (fault : ProtocolFault)
  | unknownCommand (number : UInt32)
  | unauthorized
  /-- Octets are not the binary form of a value. -/
  | serialization (fault : Binary.Fault)
  | consistency (fault : ConsistencyFault)
  /-- The newest local entry is not on the peer, or differs there. -/
  | logMismatch (id : LogId) (localTime remoteTime : Option Instant)
  /-- An entry does not follow the position. -/
  | outOfSequence (expected found : LogId)
  /-- The node is no master; the one it follows is named. -/
  | notMaster (master : String)
  | transport (peer reason : String)
  /-- The peer answered with an error. -/
  | remote (code : ErrorCode) (text : String)
  | storage (fault : StorageFault)
  | io (reason : String)
  /-- The node is shutting down. -/
  | cancelled
  /-- An addition ran over the width of its number, in the program built with checks of overflow. The
  work breaks down there: it is never caught, and no peer is told of it. -/
  | overflow
  deriving DecidableEq, Repr

/-! ## Wording -/

/-- The wording of a cause. -/
def ConfigFault.message : ConfigFault → String
  | .emptyUrl => "node.url cannot be empty"
  | .emptyBindAddress => "node.bind_address cannot be empty"
  | .emptySecret => "cluster.shared_secret cannot be empty"
  | .masterAddressRequired => "cluster.master_address is required when cluster.master = false"
  | .zeroReadLogLimit => "cluster.read_log_limit must be > 0"
  | .zeroHostUpdateThreshold => "cluster.host_update_threshold must be > 0"
  | .electionThreshold election hostUpdate =>
    s!"cluster.election_threshold ({election}) must exceed cluster.host_update_threshold ({hostUpdate})"
  | .noMasterNamed peer => s!"{peer} is not a master and names no other master"
  | .namedNoMaster peer named => s!"{peer} names {named} as master, but it is not one either"
  | .stated text => text

/-- The wording of a cause. -/
def ProtocolFault.message : ProtocolFault → String
  | .reservedKey key updater =>
    s!"key {Text.octetList key} from {updater} is outside the data partitions"
  | .followersOnly command => s!"{command.name} is only accepted by followers"
  | .wrongCommand expected found => s!"expected {expected.name} message, got {found.name}"
  | .body fault => fault.message
  | .missingCommand => "missing command header"
  | .commandNotNumber => "command header is not a number"
  | .notServed command endpoint => s!"{command.name} is not served on {endpoint.path}"
  | .bodyNotText => "body is not text"
  | .commandMismatch header content =>
    s!"command header says {header.name} but body holds {content.name}"
  | .stated text => text

/-- The wording of a cause. -/
def ConsistencyFault.message : ConsistencyFault → String
  | .readerAhead lastSeen position =>
    s!"peer has seen log id {lastSeen} but local position is {position}"
  | .masterApplies => "a master does not apply replicated entries"
  | .noProgress peer position peerPosition =>
    s!"no progress catching up from {peer} at log position {position} (peer at {peerPosition})"
  | .stated text => text

/-- The wording of a cause. -/
def StorageFault.message : StorageFault → String
  | .entryMissing id => s!"local log entry {id} is missing"
  | .record fault => fault.message
  | .misplaced expected found => s!"log record {expected} holds entry {found}"
  | .noSuccessor partition => s!"partition {partition.name} has no successor"
  | .malformedKey partition length => s!"malformed {partition.name} key of {length} bytes"
  | .fenceMissing partition => s!"fence record for partition {partition.name} is missing"
  | .stated text => text

namespace Error

/-- The wording of an error. -/
def message : Error → String
  | .config fault => s!"Configuration error: {fault.message}"
  | .configParse reason => s!"Invalid configuration file: {reason}"
  | .protocol fault => s!"Protocol error: {fault.message}"
  | .unknownCommand number => s!"Unknown command id {number}"
  | .unauthorized => "Credential mismatch"
  | .serialization fault => s!"Serialization error: {fault.message}"
  | .consistency fault => s!"Consistency error: {fault.message}"
  | .logMismatch id localTime remoteTime =>
    s!"Log mismatch at id {id}: local timestamp {Text.presence localTime}, " ++
      s!"remote timestamp {Text.presence remoteTime}"
  | .outOfSequence expected found => s!"Out-of-sequence entry: expected id {expected}, got {found}"
  | .notMaster master => s!"Not master: current master is {Text.quote master}"
  | .transport peer reason => s!"Transport error talking to {peer}: {reason}"
  | .remote code text => s!"Remote error {code.label}: {text}"
  | .storage fault => s!"Storage error: {fault.message}"
  | .io reason => s!"I/O error: {reason}"
  | .cancelled => "Operation cancelled"
  | .overflow => "attempt to add with overflow"

/-! ## Classification -/

/-- The name of an error's kind. -/
def kind : Error → String
  | .config _ => "Config"
  | .configParse _ => "ConfigParse"
  | .protocol _ => "Protocol"
  | .unknownCommand _ => "UnknownCommand"
  | .unauthorized => "Unauthorized"
  | .serialization _ => "Serialization"
  | .consistency _ => "Consistency"
  | .logMismatch .. => "LogMismatch"
  | .outOfSequence .. => "OutOfSequence"
  | .notMaster _ => "NotMaster"
  | .transport .. => "Transport"
  | .remote .. => "Remote"
  | .storage _ => "Storage"
  | .io _ => "Io"
  | .cancelled => "Cancelled"
  | .overflow => "Overflow"

/-- The wire code of an error. -/
def code : Error → ErrorCode
  | .config _ | .configParse _ => .config
  | .protocol _ | .serialization _ => .protocol
  | .unknownCommand _ => .unknownCommand
  | .unauthorized => .unauthorized
  | .consistency _ | .logMismatch .. | .outOfSequence .. => .consistency
  | .notMaster _ => .notMaster
  | .transport .. => .transport
  | .remote code _ => code
  | .storage _ | .io _ => .storage
  | .cancelled | .overflow => .unknown

/-- Whether the error says that two logs disagree. -/
def isConsistency (e : Error) : Bool := e.code == .consistency

/-- Whether a follower keeps tailing after the error: the peer could not be reached, it answered with
an error other than one of credentials or configuration, or the logs disagree. -/
def isRecoverable : Error → Bool
  | .transport .. => true
  | .remote code _ => code != .unauthorized && code != .config
  | e => e.isConsistency

end Error

/-- A message of the command expected. -/
def Message.expect (command : Command) (m : Message) : Except Error Message :=
  if m.command = command then .ok m else .error (.protocol (.wrongCommand command m.command))

end LogShipping
