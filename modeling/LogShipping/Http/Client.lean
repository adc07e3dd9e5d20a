import LogShipping.Http
import LogShipping.Http.Status

/-!
# Calling a peer

A call is one request: the message is its body, the command and the secret are headers. The response
is a message, or an error of the peer: one that a header names, or one that the status tells of.
-/

namespace LogShipping.Http

/-- The address of a request to a peer; slashes at the end of the peer's own address do not count. -/
def target (peer : String) (command : Command) : String :=
  String.ofList (peer.toList.reverse.dropWhile (· == '/')).reverse ++ command.endpoint.path

/-- The request that carries a message, without the part of the address that names the peer. -/
def Request.ofMessage (secret : String) (m : Message) : Request where
  method := "POST"
  path := m.command.endpoint.path
  headers :=
    [(commandHeader, Bytes.ofString (toString m.command.number)),
     (secretHeader, Bytes.ofString secret)]
  body := Bytes.ofString m.toBody

/-- What a response to a call says. -/
def Response.outcome (r : Response) : Except Error Message :=
  if !r.isSuccess || r.errorCode?.isSome then
    .error (.remote (r.errorCode?.getD .unknown)
      (if r.body.isEmpty then s!"HTTP {statusLine r.status}" else r.body))
  else (Message.ofBody r.body).mapError fun fault => .protocol (.body fault)

/-- A way to have a request answered, by the address that it goes to: a response, or the reason why
there is none. -/
abbrev Exchange (m : Type → Type) := String → Request → m (Except String Response)

/-- Sends a message to a peer. -/
def send {m : Type → Type} [Monad m] (exchange : Exchange m) (secret peer : String)
    (message : Message) : m (Except Error Message) := do
  let request := Request.ofMessage secret message
  if request.headers.any fun h => !h.2.all isSendable then
    return .error (.transport peer "the secret cannot be sent in a header")
  match ← exchange (target peer message.command) request with
  | .error reason => return .error (.transport peer reason)
  | .ok response => return response.outcome

/-- Sends a message to a peer and checks the command of the reply. -/
def call {m : Type → Type} [Monad m] (exchange : Exchange m) (secret peer : String)
    (message : Message) : m (Except Error Message) := do
  return (← send exchange secret peer message).bind (Message.expect message.command)

/-- Sends a message to a peer. On success the reply takes the place of the message, on failure the
message stays; the result tells which. -/
def tryCall {m : Type → Type} [Monad m] (exchange : Exchange m) (secret peer : String)
    (message : Message) : m (Bool × Message) := do
  match ← call exchange secret peer message with
  | .ok reply => return (true, reply)
  | .error _ => return (false, message)

end LogShipping.Http
