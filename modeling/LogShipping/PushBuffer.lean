import LogShipping.Counters
import LogShipping.Entry
import Std.Data.ExtTreeMap

/-!
# Push buffers

A follower keeps the entries that its master pushed until they follow its position. The buffer is
bounded; a full buffer takes only ids that it holds already. Draining throws away what the position
has overtaken and hands out the entries that follow it without a gap.
-/

namespace LogShipping

/-- Entries pushed ahead of the position, by id. -/
structure PushBuffer where
  /-- The entries held. -/
  entries : Std.ExtTreeMap LogId Entry
  /-- How many entries may be held. -/
  capacity : Nat

namespace PushBuffer

/-- An empty buffer, which holds at least one entry. -/
def new (capacity : Nat) : PushBuffer := ⟨∅, max capacity 1⟩

/-- The number of entries held. -/
def size (b : PushBuffer) : Nat := b.entries.size

/-- Whether an entry may be taken in at a position. -/
def accepts (b : PushBuffer) (e : Entry) (position : LogId) : Bool :=
  position < e.id && (b.entries.size < b.capacity || b.entries.contains e.id)

/-- Takes an entry in, if it may be; it replaces one of the same id. -/
def insert (b : PushBuffer) (e : Entry) (position : LogId) : Bool × PushBuffer :=
  if b.accepts e position then (true, { b with entries := b.entries.insert e.id e }) else (false, b)

/-- The beginning of a list of entries in order of id that starts at `next` and has no gap. -/
def run (next : LogId) : List (LogId × Entry) → List (LogId × Entry)
  | [] => []
  | (id, e) :: rest => if id = next then (id, e) :: run (next + 1) rest else []

/-- Hands out the entries that follow the position, and keeps those beyond a gap. Nothing is handed out
where the search for the next id breaks down: at the last position before anything is taken out, and
behind an entry of the last id when all is taken out that was to be handed out. -/
def drain (b : PushBuffer) (position : LogId) : Option (List Entry) × PushBuffer :=
  match Counters.next? position with
  | none => (none, b)
  | some next =>
    -- What the position has overtaken is thrown away.
    let newer := b.entries.filter fun id _ => next ≤ id
    let ready := run next newer.toList
    (if ready.all fun row => (Counters.next? row.1).isSome then some (ready.map (·.2)) else none,
      { b with entries := ready.foldl (fun held row => held.erase row.1) newer })

/-- Forgets all entries. -/
def clear (b : PushBuffer) : PushBuffer := { b with entries := ∅ }

/-- What is handed out is the beginning of what is held. -/
theorem run_isPrefix (next : LogId) (rows : List (LogId × Entry)) : run next rows <+: rows := by
  induction rows generalizing next with
  | nil => simp [run]
  | cons row rows ih =>
    obtain ⟨id, e⟩ := row
    by_cases h : id = next
    · simp [run, h, ih]
    · simp [run, h]

/-- A buffer never holds more than it has room for. -/
theorem size_insert_le (b : PushBuffer) (e : Entry) (position : LogId) (h : b.size ≤ b.capacity) :
    (b.insert e position).2.size ≤ b.capacity := by
  unfold insert
  split
  next accepted =>
    simp only [accepts, Bool.and_eq_true, Bool.or_eq_true, decide_eq_true_eq] at accepted
    simp only [size, Std.ExtTreeMap.size_insert] at *
    split <;> grind
  next => exact h

end PushBuffer

end LogShipping
