import LogShipping.Http
import LogShipping.Http.Page
import LogShipping.Node.Service

/-!
# The service over HTTP

A node answers calls at the two endpoints of the protocol and shows two pages. A call reaches the
service only after a row of checks, the first of which is the secret: whoever does not know it learns
the same from every request. An error travels as a status, the number of its code in a header, and its
wording as the body.
-/

namespace LogShipping.Http

/-! ## Checks -/

/-- Whether two strings are the same; every octet is looked at, whatever the ones before it are. -/
def secretsMatch (given expected : Bytes) : Bool :=
  given.length == expected.length &&
    (List.zipWith (· ^^^ ·) given expected).foldl (· ||| ·) 0 == 0

/-- The text of a body. -/
def bodyText (body : Bytes) : Except Error String :=
  (Utf8.decode body).mapError fun _ => .protocol .bodyNotText

/-- Checks a call and reads its message. -/
def readCall (secret : String) (endpoint : Endpoint) (headers : List Header) (body : Bytes) :
    Except Error Message := do
  -- A secret that is missing or unreadable counts as empty.
  let given := (headerText? headers secretHeader).getD ""
  unless secretsMatch (Bytes.ofString given) (Bytes.ofString secret) do throw .unauthorized
  let some number := headerText? headers commandHeader | throw (.protocol .missingCommand)
  let some number := Text.word32? number | throw (.protocol .commandNotNumber)
  let some command := Command.ofNumber? number | throw (.unknownCommand number)
  unless endpoint.accepts command do throw (.protocol (.notServed command endpoint))
  let text ← bodyText body
  let m ← (Message.ofBody text).mapError fun fault => .protocol (.body fault)
  unless m.command = command do throw (.protocol (.commandMismatch command m.command))
  return m

/-! ## Responses -/

/-- The status that goes with an error. -/
def statusOf : ErrorCode → Nat
  | .unauthorized => 401
  | .protocol | .unknownCommand => 400
  | .notMaster | .consistency => 409
  | _ => 500

/-- The response that tells of an error. -/
def Response.ofError (error : Error) : Response where
  status := statusOf error.code
  headers := [(errorCodeHeader, Bytes.ofString (toString error.code.number))]
  body := error.message

/-- What the other end gets when the work on a call breaks down: no response, but the end of the
connection. -/
def Response.closed : Response where
  status := 0

/-- The response that answers a call. -/
def Response.ofReply : Except Error Message → Response
  | .ok m => { status := 200, body := m.toBody }
  | .error .overflow => .closed
  | .error error => .ofError error

/-- The most octets that the body of a call may have. -/
def bodyLimit : Nat := 2097152

/-- The response to a call whose body is too long. -/
def Response.tooLarge : Response where
  status := 413
  body := "Failed to buffer the request body: length limit exceeded"

/-! ## Routes -/

/-- What a node does about a request: the response, and what is to be announced because of it. -/
structure Reaction where
  /-- The response. -/
  response : Response
  /-- The announcement, if any. -/
  announcement : Option Announcement := none

/-- Answers a call at an endpoint. -/
def answerCall (now : Instant) (endpoint : Endpoint) (r : Request) (n : Node) : Reaction × Node :=
  if bodyLimit < r.body.length then (⟨.tooLarge, none⟩, n)
  else
    match readCall n.secret endpoint r.headers r.body with
    | .error error => (⟨.ofError error, none⟩, n)
    | .ok m =>
      let (answer, n) := n.handle now m
      (⟨.ofReply answer.reply, answer.announcement⟩, n)

/-- Answers a request for the status page. -/
def answerStatus (now : Instant) (n : Node) : Reaction × Node :=
  let (recent, n) := recentEntries now n
  (⟨{ status := 200, body := statusPage recent n }, none⟩, n)

/-- A reaction with the body left out, for a request that wants to know the rest only. -/
def Reaction.headOnly (reaction : Reaction) : Reaction :=
  { reaction with response := { reaction.response with body := "" } }

/-- Answers a request for a page that `render` makes; no other methods than those that read are
allowed. -/
def answerPage (render : Node → Reaction × Node) (r : Request) (n : Node) : Reaction × Node :=
  if r.method = "GET" then render n
  else if r.method = "HEAD" then
    let (reaction, n) := render n
    (reaction.headOnly, n)
  else (⟨{ status := 405 }, none⟩, n)

/-- Answers a request. -/
def answer (now : Instant) (r : Request) (n : Node) : Reaction × Node :=
  if r.route = Endpoint.master.path ∨ r.route = Endpoint.remote.path then
    if r.method = "POST" then
      answerCall now (if r.route = Endpoint.master.path then .master else .remote) r n
    else (⟨{ status := 405 }, none⟩, n)
  else if r.route = "/status" then answerPage (answerStatus now) r n
  else if r.route = "/health" then
    answerPage (fun n => (⟨{ status := 200, body := healthPage n }, none⟩, n)) r n
  else (⟨{ status := 404 }, none⟩, n)

end LogShipping.Http
