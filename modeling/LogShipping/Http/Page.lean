import LogShipping.Node
import LogShipping.Text.Quoted

/-!
# Pages for people and monitors

What a node tells of itself to anybody who asks, as one JSON object on a line.
-/

namespace LogShipping.Http

/-! ## Writing objects -/

/-- The written form of one character of a JSON string. -/
def jsonChar (c : Char) : List Char :=
  if c = '"' then ['\\', '"']
  else if c = '\\' then ['\\', '\\']
  else if c = '\x08' then ['\\', 'b']
  else if c = '\x0c' then ['\\', 'f']
  else if c = '\n' then ['\\', 'n']
  else if c = '\r' then ['\\', 'r']
  else if c = '\t' then ['\\', 't']
  else if c < ' ' then ['\\', 'u'] ++ Text.hexDigits 4 c.toNat
  else [c]

/-- A JSON string. -/
def jsonString (s : String) : String := String.ofList ('"' :: s.toList.flatMap jsonChar ++ ['"'])

/-- A JSON object of fields that are written already. -/
def jsonObject (fields : List (String × String)) : String :=
  "\x7b" ++ ",".intercalate (fields.map fun (name, value) => jsonString name ++ ":" ++ value) ++ "\x7d"

/-- A JSON array of values that are written already. -/
def jsonArray (values : List String) : String := "[" ++ ",".intercalate values ++ "]"

/-! ## Pages -/

/-- The span of time that counts as recent, in milliseconds. -/
def recentSpan : UInt64 := 60000

/-- The most entries that are counted as recent. -/
def recentLimit : UInt64 := 100000

/-- The beginning of the recent time. -/
def recentSince (now : Instant) : Instant := if now < recentSpan then 0 else now - recentSpan

/-- How many entries of the log are recent; none if the store cannot tell. -/
def recentEntries (now : Instant) (n : Node) : Nat × Node :=
  match n.onLog (Log.onStore (Log.idsSince (recentSince now) recentLimit)) with
  | (.ok ids, n) => (ids.length, n)
  | (.error _, n) => (0, n)

/-- A host of the status page. -/
def hostObject (h : Host) : String :=
  jsonObject
    [("url", jsonString h.url), ("log_position", toString h.logPosition),
     ("last_seen", toString h.lastSeen)]

/-- The status page of a node that counts `recent` entries as recent. -/
def statusPage (recent : Nat) (n : Node) : String :=
  jsonObject
    [("url", jsonString n.url), ("role", jsonString n.standing.role),
     ("master_address", jsonString n.standing.master), ("log_position", toString n.position),
     ("record_counter", toString n.log.counters.primary),
     ("push_target", (n.standing.pushTarget.map jsonString).getD "null"),
     ("recent_entries", toString recent), ("hosts", jsonArray (n.hosts.toList.map hostObject))]

/-- The health page of a node. -/
def healthPage (n : Node) : String :=
  jsonObject
    [("log_position", toString n.position), ("role", jsonString n.standing.role),
     ("status", jsonString "healthy")]

end LogShipping.Http
