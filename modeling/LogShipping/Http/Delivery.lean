import LogShipping.Http.Client
import LogShipping.Http.Service

/-!
# Delivery

A node as the other end of an exchange. A request arrives as it was sent, except that the blanks and
tabs at both ends of a header value are lost on the way: a secret that begins or ends with one is not
the secret that the node reads.
-/

namespace LogShipping.Http

/-! ## On the way -/

/-- Whether an octet is a blank or a tab, which do not count at the ends of a header value. -/
def isPadding (b : UInt8) : Bool := b == 32 || b == 9

/-- A header value as it arrives, without the padding at its ends. -/
def unpadded (value : Bytes) : Bytes :=
  ((value.dropWhile isPadding).reverse.dropWhile isPadding).reverse

/-- The request as it arrives at the other end. -/
def Request.arrived (r : Request) : Request :=
  { r with headers := r.headers.map fun (name, value) => (name, unpadded value) }

/-! ## At the node -/

/-- The exchange in which one node answers every request, whatever address it goes to. -/
def exchangeWith (now : Instant) : Exchange (StateM Node) := fun _ r n =>
  let (reaction, n) := answer now r.arrived n
  (if reaction.response = .closed then .error "connection closed" else .ok reaction.response, n)

end LogShipping.Http
