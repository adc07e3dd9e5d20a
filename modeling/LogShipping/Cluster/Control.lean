import LogShipping.Cluster
import LogShipping.Http.Service

/-!
# Control of a cluster

What is done to a cluster from outside: nodes are opened and closed, peers are cut off and joined
again, scripts stand in for peers, and requests come in over HTTP.
-/

namespace LogShipping.Cluster

/-! ## Nodes -/

/-- Opens a node over a store, in the place of a node that has its address. If that fails nothing
changes. -/
def openNode (setup : Setup) (store : Store) : ClusterWork (Except Error Unit) := fun c =>
  match ((Node.start setup c.now).run.run store).1 with
  | .ok n =>
    let replaced := (c.node? setup.url).toList
    (.ok (), { c with nodes := c.nodes.insert setup.url n, gone := replaced ++ c.gone })
  | .error error => (.error error, c)

/-- Tells a node to stop and takes it out of the cluster; the result is the store that it leaves. -/
def closeNode (url : String) : ClusterWork (Option Store) := fun c =>
  match c.node? url with
  | none => (none, c)
  | some n =>
    (some n.log.store,
      { c with nodes := c.nodes.erase url, gone := n.restand Standing.stop :: c.gone })

/-- Closes a node and opens one over the store that it leaves, perhaps at another address; without
that node nothing happens. -/
def reopenNode (url : String) (setup : Setup) : ClusterWork (Except Error Unit) := do
  match ← closeNode url with
  | some store => openNode setup store
  | none => return .ok ()

/-! ## The network -/

/-- Cuts an address off. -/
def cutOff (url : String) : ClusterWork Unit :=
  modify fun c => { c with down := if c.down.contains url then c.down else url :: c.down }

/-- Joins an address again. -/
def rejoin (url : String) : ClusterWork Unit :=
  modify fun c => { c with down := c.down.filter (· != url) }

/-- Puts a script in a peer's place. Of a script that stands there already the other commands stay. -/
def script (url : String) (replies : Script) : ClusterWork Unit :=
  modify fun c =>
    let revised := replies.revise ((c.scripts.lookup url).getD [])
    { c with scripts := (url, revised) :: c.scripts.filter (·.1 != url) }

/-- Takes the script of a peer away. -/
def unscript (url : String) : ClusterWork Unit :=
  modify fun c => { c with scripts := c.scripts.filter (·.1 != url) }

/-- Sends a message to a peer. On success the reply takes the place of the message, on failure the
message stays; the result tells which. -/
def tryCall (peer : String) (m : Message) : ClusterWork (Bool × Message) := do
  match ← call peer m with
  | some (.ok reply) => return (true, reply)
  | _ => return (false, m)

/-! ## Requests -/

/-- Has the node at an address answer a request, if there is a node. -/
def request (url : String) (r : Http.Request) : ClusterWork (Option Http.Response) := do
  let now := (← get).now
  match ← onNode url (Http.answer now r) with
  | none => return none
  | some reaction =>
    defer reaction.announcement
    return some reaction.response

end LogShipping.Cluster
