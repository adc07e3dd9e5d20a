import LogShipping.Error
import LogShipping.Text.Digits

/-!
# HTTP exchanges

Requests and responses as far as the protocol uses them. A header is looked up by a name in which case
does not matter, and its first value counts. Values are octets; as text counts only a value of visible
characters of the ASCII range, blanks and tabs included.
-/

namespace LogShipping.Http

/-! ## Headers -/

/-- A header field: its name and its value. -/
abbrev Header := String × Bytes

/-- The header that names the command of a request by number. -/
def commandHeader : String := "x-wolfkv-command"

/-- The header that carries the secret of the cluster. -/
def secretHeader : String := "x-wolfkv-secret"

/-- The header that names the error of a response by number. -/
def errorCodeHeader : String := "x-wolfkv-error-code"

/-- The first value of a header. -/
def header? (headers : List Header) (name : String) : Option Bytes :=
  (headers.find? fun h => h.1.toLower == name).map (·.2)

/-- Whether an octet is a visible character of the ASCII range, a blank or a tab. -/
def isReadable (b : UInt8) : Bool := (32 ≤ b && b < 127) || b == 9

/-- Whether an octet may stand in a header value. -/
def isSendable (b : UInt8) : Bool := (32 ≤ b && b ≠ 127) || b == 9

/-- The text of a header value. -/
def readable? (value : Bytes) : Option String :=
  if value.all isReadable then some (String.ofList (value.map fun b => Char.ofNat b.toNat)) else none

/-- The text of a header. -/
def headerText? (headers : List Header) (name : String) : Option String :=
  (header? headers name).bind readable?

/-! ## Requests and responses -/

/-- A request. -/
structure Request where
  /-- The method, in capitals. -/
  method : String
  /-- The path, perhaps with a query and a fragment behind it and a scheme and a host before it. -/
  path : String
  /-- The headers, in order. -/
  headers : List Header
  /-- The body. -/
  body : Bytes
  deriving DecidableEq, Repr

/-- What follows the scheme of an address, if it has one. -/
def afterScheme? : List Char → Option (List Char)
  | [] => none
  | ':' :: '/' :: '/' :: rest => some rest
  | _ :: rest => afterScheme? rest

namespace Request

/-- The path alone: without a scheme and a host in front of it, and without a query and a fragment
behind it. -/
def route (r : Request) : String :=
  let target := r.path.toList.takeWhile fun c => c != '?' && c != '#'
  match target.head?, afterScheme? target with
  | some '/', _ | _, none => String.ofList target
  | _, some rest => String.ofList (rest.dropWhile (· != '/'))

end Request

/-- A response. -/
structure Response where
  /-- The status. -/
  status : Nat
  /-- The headers, in order. -/
  headers : List Header := []
  /-- The body, as text. -/
  body : String := ""
  deriving DecidableEq, Repr

namespace Response

/-- Whether the status tells of success. -/
def isSuccess (r : Response) : Bool := 200 ≤ r.status && r.status < 300

/-- The error that the response names. -/
def errorCode? (r : Response) : Option ErrorCode :=
  ((headerText? r.headers errorCodeHeader).bind Text.word32?).map ErrorCode.ofNumber

end Response

end LogShipping.Http
