import LogShipping.Entry
import LogShipping.Host
import LogShipping.Text.Base64
import LogShipping.Text.Blank

/-!
# Messages

Each command of the protocol has one kind of message, used for the request and for the reply: the
caller fills in what it asks, the node that answers repeats that and fills in the rest. A node
serves commands at two endpoints. On the wire a message is the Base64 text of its binary form, and
blanks around that text are ignored.
-/

namespace LogShipping

open Binary

/-! ## Commands and endpoints -/

/-- The commands of the protocol, in the order of their numbers. -/
inductive Command where
  /-- A follower makes itself known to the master. -/
  | register
  /-- One entry by its id. -/
  | readOne
  /-- A page of the log. -/
  | readLog
  /-- A whole host table. -/
  | setHosts
  /-- One host, for followers only. -/
  | addHost
  /-- A fresh entry, for followers only. -/
  | pushTransaction
  /-- Role and position. -/
  | status
  deriving DecidableEq, Repr

/-- Where a node serves commands. -/
inductive Endpoint where
  /-- Calls to a node as a source of the log. -/
  | master
  /-- Calls to a node as a member of the cluster. -/
  | remote
  deriving DecidableEq, Repr

namespace Command

/-- All commands, in the order of their numbers. -/
def all : List Command :=
  [.register, .readOne, .readLog, .setHosts, .addHost, .pushTransaction, .status]

/-- The number of a command on the wire. -/
def number : Command → UInt32
  | .register => 1
  | .readOne => 2
  | .readLog => 3
  | .setHosts => 4
  | .addHost => 5
  | .pushTransaction => 6
  | .status => 7

/-- The command of a number. -/
def ofNumber? (n : UInt32) : Option Command := all.find? fun c => c.number == n

/-- The name of a command in messages. -/
def name : Command → String
  | .register => "REGISTER"
  | .readOne => "READ_ONE"
  | .readLog => "READ_LOG"
  | .setHosts => "SET_HOSTS"
  | .addHost => "ADD_HOST"
  | .pushTransaction => "PUSH_TRANSACTION"
  | .status => "STATUS"

/-- The endpoint that a call goes to. -/
def endpoint : Command → Endpoint
  | .register | .readOne | .readLog => .master
  | .setHosts | .addHost | .pushTransaction | .status => .remote

@[simp] theorem ofNumber?_number (c : Command) : ofNumber? c.number = some c := by
  cases c <;> rfl

end Command

namespace Endpoint

/-- The path of an endpoint. -/
def path : Endpoint → String
  | .master => "/replication/master"
  | .remote => "/replication/remote"

/-- Whether the endpoint serves a command: its own ones, and the two that any node answers. -/
def accepts (e : Endpoint) (c : Command) : Bool :=
  c.endpoint == e || c == .status || c == .readOne

/-- A call always goes to an endpoint that serves it. -/
theorem accepts_endpoint (c : Command) : c.endpoint.accepts c = true := by cases c <;> rfl

end Endpoint

/-! ## Messages -/

/-- A request or a reply. -/
inductive Message where
  /-- The follower and its position; the reply adds the master's host table. -/
  | register (url : String) (logPosition : LogId) (hosts : List Host)
  /-- An id; the reply adds the entry, if there is one. -/
  | readOne (id : LogId) (entry : Option Entry)
  /-- The reader, the last id it has seen and the size of the page; the reply adds the page. -/
  | readLog (url : String) (lastSeen : LogId) (limit : UInt32) (chunk : Chunk)
  /-- The host table to adopt. -/
  | setHosts (hosts : List Host)
  /-- The host to adopt. -/
  | addHost (host : Host)
  /-- The pushing master and the entry; the reply tells whether the entry was taken. -/
  | pushTransaction (source : String) (entry : Entry) (accepted : Bool)
  /-- Empty in the request; the reply describes the node that answers. -/
  | status (url : String) (logPosition : LogId) (isMaster : Bool) (masterAddress : String)
  deriving DecidableEq, Repr

namespace Message

/-- The command that a message belongs to. -/
def command : Message → Command
  | .register .. => .register
  | .readOne .. => .readOne
  | .readLog .. => .readLog
  | .setHosts .. => .setHosts
  | .addHost .. => .addHost
  | .pushTransaction .. => .pushTransaction
  | .status .. => .status

/-! ### Requests -/

/-- Asks a master to take a follower in. -/
def registerRequest (url : String) (logPosition : LogId) : Message := .register url logPosition []

/-- Asks for one entry. -/
def readOneRequest (id : LogId) : Message := .readOne id none

/-- Asks for a page of the log. -/
def readLogRequest (url : String) (lastSeen : LogId) (limit : UInt32) : Message :=
  .readLog url lastSeen limit {}

/-- Offers an entry to a follower. -/
def pushRequest (source : String) (entry : Entry) : Message := .pushTransaction source entry false

/-- Asks a node for its role and position. -/
def statusRequest : Message := .status "" 0 false ""

/-! ### Binary form -/

/-- The content of a registration. -/
def registerCodec : Codec (String × LogId × List Host) :=
  Codec.text.pair (Codec.word64.pair (Codec.list Host.codec))

/-- The content of a request for one entry. -/
def readOneCodec : Codec (LogId × Option Entry) := Codec.word64.pair (Codec.option Entry.codec)

/-- The content of a request for a page. -/
def readLogCodec : Codec (String × LogId × UInt32 × Chunk) :=
  Codec.text.pair (Codec.word64.pair (Codec.word32.pair Chunk.codec))

/-- The content of a push. -/
def pushTransactionCodec : Codec (String × Entry × Bool) :=
  Codec.text.pair (Entry.codec.pair Codec.truth)

/-- The content of a status. -/
def statusCodec : Codec (String × LogId × Bool × String) :=
  Codec.text.pair (Codec.word64.pair (Codec.truth.pair Codec.text))

/-- The content of a message, behind its number: messages are numbered from 0 in the order of their
commands. -/
def write : Message → Bytes
  | .register url logPosition hosts =>
    Codec.word32.write 0 ++ registerCodec.write (url, logPosition, hosts)
  | .readOne id entry => Codec.word32.write 1 ++ readOneCodec.write (id, entry)
  | .readLog url lastSeen limit chunk =>
    Codec.word32.write 2 ++ readLogCodec.write (url, lastSeen, limit, chunk)
  | .setHosts hosts => Codec.word32.write 3 ++ (Codec.list Host.codec).write hosts
  | .addHost host => Codec.word32.write 4 ++ Host.codec.write host
  | .pushTransaction source entry accepted =>
    Codec.word32.write 5 ++ pushTransactionCodec.write (source, entry, accepted)
  | .status url logPosition isMaster masterAddress =>
    Codec.word32.write 6 ++ statusCodec.write (url, logPosition, isMaster, masterAddress)

/-- Takes a message from the front of the input. -/
def read (input : Bytes) : Except Binary.Fault (Message × Bytes) := do
  let (choice, rest) ← Codec.word32.read input
  if choice = 0 then
    let ((url, logPosition, hosts), rest) ← registerCodec.read rest
    return (.register url logPosition hosts, rest)
  else if choice = 1 then
    let ((id, entry), rest) ← readOneCodec.read rest
    return (.readOne id entry, rest)
  else if choice = 2 then
    let ((url, lastSeen, limit, chunk), rest) ← readLogCodec.read rest
    return (.readLog url lastSeen limit chunk, rest)
  else if choice = 3 then
    let (hosts, rest) ← (Codec.list Host.codec).read rest
    return (.setHosts hosts, rest)
  else if choice = 4 then
    let (host, rest) ← Host.codec.read rest
    return (.addHost host, rest)
  else if choice = 5 then
    let ((source, entry, accepted), rest) ← pushTransactionCodec.read rest
    return (.pushTransaction source entry accepted, rest)
  else if choice = 6 then
    let ((url, logPosition, isMaster, masterAddress), rest) ← statusCodec.read rest
    return (.status url logPosition isMaster masterAddress, rest)
  else throw (.choice choice 7)

/-- The binary form of messages. -/
def codec : Codec Message := ⟨write, read⟩

/-! ### Wire text -/

/-- Why a text is not that of a message. -/
inductive BodyFault where
  /-- The text is not Base64. -/
  | base64 (fault : Base64.Fault)
  /-- The octets of the text are no message. -/
  | malformed (fault : Binary.Fault)
  deriving DecidableEq, Repr

/-- The text of a fault. -/
def BodyFault.message : BodyFault → String
  | .base64 fault => s!"body is not base64: {fault.message}"
  | .malformed fault => s!"malformed message: {fault.message}"

/-- The wire text of a message. -/
def toBody (m : Message) : String :=
  String.ofList ((Base64.encode (codec.write m)).map fun b => Char.ofNat b.toNat)

/-- The message of a wire text. -/
def ofBody (body : String) : Except BodyFault Message :=
  match Base64.decode (Bytes.ofString (Text.trim body)) with
  | .error fault => .error (.base64 fault)
  | .ok octets =>
    match codec.decode octets with
    | .error fault => .error (.malformed fault)
    | .ok m => .ok m

end Message

end LogShipping
