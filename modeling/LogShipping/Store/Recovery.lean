import LogShipping.Counters
import LogShipping.Store

/-!
# Fences and recovery

Opening a store writes the fences that are missing, and then finds the counters of the node again:
the last sequence number of a partition stands right before the fence of the next one.
-/

namespace LogShipping.Store

/-- Collects the writes of the fences that are missing among `partitions`. -/
def missingFences : List Partition → Access (List BatchOp)
  | [] => return []
  | p :: rest => do
    let present ← lookup (Key.fence p)
    let ops ← missingFences rest
    return if present.isNone then .put (Key.fence p) [] :: ops else ops

/-- Writes the missing fences in one batch; the result is their number. -/
def ensureFences : Access Nat := do
  let ops ← missingFences Partition.all
  if !ops.isEmpty then writeBatch ops
  return ops.length

/-- The last sequence number of a partition, 0 when it holds only its fence. -/
def lastSequence (p : Partition) : Access UInt64 := do
  match p.next? with
  | none => throw (.storage (.noSuccessor p))
  | some next =>
    -- With the partition's own fence in place, what is found is a key of the partition.
    match ← seekPrev (Key.fence next) with
    | some (key, _) =>
      if Key.partition? key = some p then
        match Key.sequence? key with
        | some sequence => return sequence
        | none => throw (.storage (.malformedKey p key.length))
      else throw (.storage (.fenceMissing p))
    | none => throw (.storage (.fenceMissing p))

/-- The counters that the rows speak for. -/
def recoverCounters : Access Counters := do
  let position ← lastSequence .log
  let primary ← lastSequence .record
  return { primary := primary, position := position }

end LogShipping.Store
