/-!
# Standing of a node

Whether a node is master, whom it follows, and where it pushes fresh entries: the part of its state
that commits, the service and the coordinator share.
-/

namespace LogShipping

/-- The standing of a node in its cluster. -/
structure Standing where
  /-- The node's own address. -/
  self : String
  /-- Whether the node originates entries. -/
  isMaster : Bool
  /-- The address that log pulls go to: the node's own on a master. -/
  master : String
  /-- The follower last seen to be fully caught up, which fresh entries are pushed to. -/
  pushTarget : Option String := none
  /-- Whether the node has been told to stop. -/
  shutDown : Bool := false
  deriving DecidableEq, Repr

namespace Standing

/-- The standing of a node that starts; without an address to follow it names itself. -/
def start (self : String) (isMaster : Bool) (master : Option String) : Standing :=
  { self := self, isMaster := isMaster, master := if isMaster then self else master.getD self }

/-- Takes over as master. -/
def promote (s : Standing) : Standing :=
  { s with isMaster := true, master := s.self, pushTarget := none }

/-- Follows a master, perhaps a new one. -/
def follow (s : Standing) (master : String) : Standing :=
  { s with isMaster := false, master := master, pushTarget := none }

/-- Pushes to a follower from now on. -/
def aimAt (s : Standing) (follower : String) : Standing := { s with pushTarget := some follower }

/-- Stops pushing to a follower, if it is the one pushed to. -/
def lose (s : Standing) (follower : String) : Standing :=
  if s.pushTarget = some follower then { s with pushTarget := none } else s

/-- Tells the node to stop. -/
def stop (s : Standing) : Standing := { s with shutDown := true }

/-- The name of the node's role. -/
def role (s : Standing) : String := if s.isMaster then "MASTER" else "FOLLOWER"

end Standing

end LogShipping
