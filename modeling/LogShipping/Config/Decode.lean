import LogShipping.Config
import LogShipping.Toml.Document

/-!
# Configuration files

A configuration file is a TOML document with a table for each section. Keys that no section knows are
ignored, wherever they stand. A section may also be an array, which gives its fields in their order
and may end early; a field that is left out takes its default, if it has one.
-/

namespace LogShipping.Config

open Toml (Value)

/-! ## Faults -/

/-- Why a text is no configuration. -/
inductive DecodeFault where
  /-- It is no TOML document. -/
  | document (fault : Toml.Fault)
  /-- A field without a default is left out. -/
  | missing (field : String)
  /-- A field has a value of the wrong kind, or out of range. -/
  | unfit (field : String)
  deriving DecidableEq, Repr

/-- The text of a fault. -/
def DecodeFault.message : DecodeFault → String
  | .document fault => fault.message
  | .missing field => s!"missing field {field}"
  | .unfit field => s!"unfit value of {field}"

/-! ## Values -/

/-- A text. -/
def text? : Value → Option String
  | .text s => some s
  | _ => none

/-- A truth value. -/
def truth? : Value → Option Bool
  | .truth b => some b
  | _ => none

/-- A number from zero on, below a bound. -/
def below? (bound : Nat) : Value → Option Nat
  | .integer n => if 0 ≤ n ∧ n < bound then some n.toNat else none
  | _ => none

/-- A number of 32 bits. -/
def word32? (v : Value) : Option UInt32 := (below? UInt32.size v).map UInt32.ofNat

/-- A number of 64 bits. -/
def word64? (v : Value) : Option UInt64 := (below? UInt64.size v).map UInt64.ofNat

/-- Whether a value holds nothing. -/
def holdsNothing : Value → Bool
  | .array elements => elements.isEmpty
  | .table _ entries => entries.isEmpty
  | .tables elements => elements.isEmpty
  | _ => false

/-- A kind of store: its name, or a table with the name as its only key and nothing in it. -/
def backend? : Value → Option Backend
  | .text name => Backend.ofName? name
  | .table _ [(name, content)] => if holdsNothing content then Backend.ofName? name else none
  | _ => none

/-! ## Sections -/

/-- The fields of a section, by their place and name. -/
abbrev Fields := Nat → String → Option Value

/-- The fields of a value as a section. A date or a time has fields, but none that a section knows. -/
def fields? : Value → Option Fields
  | .table _ entries => some fun _ name => entries.lookup name
  | .array elements => some fun place _ => elements[place]?
  | .tables elements => some fun place _ => elements[place]?.map (.table .header)
  | .moment _ => some fun _ _ => none
  | _ => none

section
variable {α : Type}

/-- A field that must be there. -/
def required (fields : Fields) (place : Nat) (name : String) (read : Value → Option α) :
    Except DecodeFault α :=
  match fields place name with
  | none => .error (.missing name)
  | some v =>
    match read v with
    | some a => .ok a
    | none => .error (.unfit name)

/-- A field that may be left out. -/
def defaulted (fields : Fields) (place : Nat) (name : String) (read : Value → Option α)
    (default : α) : Except DecodeFault α :=
  match fields place name with
  | none => .ok default
  | some v =>
    match read v with
    | some a => .ok a
    | none => .error (.unfit name)

/-- A section that must be there. -/
def requiredSection (fields : Fields) (place : Nat) (name : String)
    (read : Fields → Except DecodeFault α) : Except DecodeFault α := do
  read (← required fields place name fields?)

/-- A section that may be left out. -/
def defaultedSection (fields : Fields) (place : Nat) (name : String)
    (read : Fields → Except DecodeFault α) (default : α) : Except DecodeFault α := do
  match fields place name with
  | none => return default
  | some _ => requiredSection fields place name read

end

/-- The section of the node itself. -/
def nodeSection (f : Fields) : Except DecodeFault NodeSection := do
  let url ← required f 0 "url" text?
  let bindAddress ← required f 1 "bind_address" text?
  let standard : NodeSection := { url := url, bindAddress := bindAddress }
  let dataDir ← defaulted f 2 "data_dir" text? standard.dataDir
  return { standard with dataDir := dataDir }

/-- The section of the cluster. -/
def clusterSection (f : Fields) : Except DecodeFault ClusterSection := do
  let standard : ClusterSection := {}
  return {
    master := ← defaulted f 0 "master" truth? standard.master
    masterAddress := ← defaulted f 1 "master_address" (fun v => (text? v).map some) none
    sharedSecret := ← defaulted f 2 "shared_secret" text? standard.sharedSecret
    readLogLimit := ← defaulted f 3 "read_log_limit" word32? standard.readLogLimit
    hostUpdateThreshold :=
      ← defaulted f 4 "host_update_threshold" word32? standard.hostUpdateThreshold
    electionThreshold := ← defaulted f 5 "election_threshold" word32? standard.electionThreshold
    busyInterval := ← defaulted f 6 "busy_interval_ms" word64? standard.busyInterval
    idleInterval := ← defaulted f 7 "idle_interval_ms" word64? standard.idleInterval
    requestTimeout := ← defaulted f 8 "request_timeout_ms" word64? standard.requestTimeout
    hostRefreshInterval :=
      ← defaulted f 9 "host_refresh_interval_ms" word64? standard.hostRefreshInterval
    pushQueueSize := ← defaulted f 10 "push_queue_size" (below? UInt64.size) standard.pushQueueSize }

/-- The section of the store. -/
def storeSection (f : Fields) : Except DecodeFault StoreSection := do
  let standard : StoreSection := {}
  return {
    backend := ← defaulted f 0 "backend" backend? standard.backend
    path := ← defaulted f 1 "path" (fun v => (text? v).map some) none }

/-- The section of what is written to the operator. -/
def loggingSection (f : Fields) : Except DecodeFault LoggingSection := do
  let standard : LoggingSection := {}
  return {
    level := ← defaulted f 0 "level" text? standard.level
    format := ← defaulted f 1 "format" text? standard.format }

/-- The configuration of a document. -/
def ofTable (t : Toml.Table) : Except DecodeFault Config := do
  let f : Fields := fun _ name => t.lookup name
  return {
    node := ← requiredSection f 0 "node" nodeSection
    cluster := ← requiredSection f 1 "cluster" clusterSection
    store := ← defaultedSection f 2 "store" storeSection {}
    logging := ← defaultedSection f 3 "logging" loggingSection {} }

/-! ## Reading -/

/-- The configuration of a text, whether or not it keeps the rules. -/
def parse (content : String) : Except Error Config :=
  match Toml.parse content with
  | .error fault => .error (.configParse (DecodeFault.document fault).message)
  | .ok t => (ofTable t).mapError fun fault => .configParse fault.message

/-- The configuration of a text, if it keeps the rules. -/
def ofText (content : String) : Except Error Config := do
  let c ← parse content
  c.validate
  return c

end LogShipping.Config
