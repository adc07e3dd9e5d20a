import LogShipping.Binary
import LogShipping.Key

/-!
# Hosts

What a node knows of a host of the cluster: its address, the last log id it is known to hold, and
when it was last heard of. Observations only ever raise the two numbers, so a record is the
componentwise maximum of all that was observed.
-/

namespace LogShipping

/-- A host of the cluster as one node knows it. -/
structure Host where
  /-- The base address, which is also the host's identity. -/
  url : String
  /-- The last log id the host is known to hold. -/
  logPosition : LogId
  /-- The time of the last contact. -/
  lastSeen : Instant
  deriving DecidableEq, Repr

namespace Host

/-- The record with another observation folded in; neither number moves backward. -/
def observe (h : Host) (logPosition : LogId) (lastSeen : Instant) : Host :=
  { h with logPosition := max h.logPosition logPosition, lastSeen := max h.lastSeen lastSeen }

/-- Whether an observation tells more than is known. -/
def isNews (h : Host) (logPosition : LogId) (lastSeen : Instant) : Bool :=
  h.logPosition < logPosition || h.lastSeen < lastSeen

/-- The written form of a host. -/
def codec : Binary.Codec Host :=
  (Binary.Codec.text.pair (Binary.Codec.word64.pair Binary.Codec.word64)).via
    (fun h => (h.url, h.logPosition, h.lastSeen))
    fun (url, logPosition, lastSeen) => ⟨url, logPosition, lastSeen⟩

@[simp] theorem url_observe (h : Host) (p : LogId) (t : Instant) : (h.observe p t).url = h.url := rfl

end Host

end LogShipping
