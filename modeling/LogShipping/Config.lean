import LogShipping.Node

/-!
# Configurations

What a node is told by its operator, section by section, with a default for everything that may be
left out, and the rules that a configuration must keep for the node to start.
-/

namespace LogShipping

/-! ## Sections -/

/-- What the node itself is. -/
structure NodeSection where
  /-- The address under which others reach the node. -/
  url : String
  /-- Where the node listens. -/
  bindAddress : String
  /-- The folder for the node's data. -/
  dataDir : String := "/var/lib/wolfkv"
  deriving DecidableEq, Repr

/-- What part the node plays in the cluster. -/
structure ClusterSection where
  /-- Whether the node starts as master. -/
  master : Bool := false
  /-- The master to follow. -/
  masterAddress : Option String := none
  /-- The secret that authenticates requests. -/
  sharedSecret : String := ""
  /-- The size of the pages asked for. -/
  readLogLimit : UInt32 := 500
  /-- How many pulls in a row fail before all hosts are probed. -/
  hostUpdateThreshold : UInt32 := 3
  /-- How many pulls in a row fail before an election. -/
  electionThreshold : UInt32 := 10
  /-- The pause after a pull that brought entries, in milliseconds. -/
  busyInterval : UInt64 := 50
  /-- The pause after a pull that brought nothing, in milliseconds. -/
  idleInterval : UInt64 := 1000
  /-- How long a call may take, in milliseconds. -/
  requestTimeout : UInt64 := 5000
  /-- The time between two distributions of the host table, in milliseconds. -/
  hostRefreshInterval : UInt64 := 5000
  /-- How many fresh entries wait to be pushed. -/
  pushQueueSize : Nat := 1024
  deriving DecidableEq, Repr

/-- The kinds of store. -/
inductive Backend where
  /-- A database, in a file or in memory. -/
  | sqlite
  /-- A tree in memory. -/
  | memory
  deriving DecidableEq, Repr

namespace Backend

/-- All kinds of store. -/
def all : List Backend := [.sqlite, .memory]

/-- The name of a kind in configurations. -/
def name : Backend → String
  | .sqlite => "sqlite"
  | .memory => "memory"

/-- The name of a kind in reports. -/
def title : Backend → String
  | .sqlite => "Sqlite"
  | .memory => "Memory"

/-- The kind of a name. -/
def ofName? (name : String) : Option Backend := all.find? fun b => b.name == name

/-- The engine that searches a store of the kind. -/
def engine : Backend → Engine
  | .sqlite => .table
  | .memory => .tree

end Backend

/-- Where the node keeps its rows. -/
structure StoreSection where
  /-- The kind of store. -/
  backend : Backend := .sqlite
  /-- The file of the store. -/
  path : Option String := none
  deriving DecidableEq, Repr

/-- What the node writes to its operator. -/
structure LoggingSection where
  /-- The least level that is written. -/
  level : String := "info"
  /-- The form in which it is written. -/
  format : String := "pretty"
  deriving DecidableEq, Repr

/-- A whole configuration. -/
structure Config where
  node : NodeSection
  cluster : ClusterSection := {}
  store : StoreSection := {}
  logging : LoggingSection := {}
  deriving DecidableEq, Repr

namespace Config

/-! ## What follows from a configuration -/

/-- The master to follow; an empty address is none. -/
def masterAddress (c : Config) : Option String := c.cluster.masterAddress.filter (· ≠ "")

/-- The path of something in a folder. -/
def inFolder (folder name : String) : String :=
  if folder.isEmpty || folder.endsWith "/" then folder ++ name else folder ++ "/" ++ name

/-- The file of the store: the one that is named, or one in the node's folder. -/
def storePath (c : Config) : String := c.store.path.getD (inFolder c.node.dataDir "wolfkv.db")

/-- How the node is opened. -/
def setup (c : Config) : Setup where
  url := c.node.url
  isMaster := c.cluster.master
  master := c.masterAddress
  secret := c.cluster.sharedSecret
  queueSize := c.cluster.pushQueueSize
  settings :=
    { readLogLimit := c.cluster.readLogLimit
      hostUpdateThreshold := c.cluster.hostUpdateThreshold
      electionThreshold := c.cluster.electionThreshold
      busyInterval := c.cluster.busyInterval
      idleInterval := c.cluster.idleInterval
      refreshInterval := c.cluster.hostRefreshInterval }

/-! ## Rules -/

/-- The first rule that a configuration breaks. -/
def fault? (c : Config) : Option ConfigFault :=
  if c.node.url.isEmpty then some .emptyUrl
  else if c.node.bindAddress.isEmpty then some .emptyBindAddress
  else if c.cluster.sharedSecret.isEmpty then some .emptySecret
  else if !c.cluster.master && c.masterAddress.isNone then some .masterAddressRequired
  else if c.cluster.readLogLimit = 0 then some .zeroReadLogLimit
  else if c.cluster.hostUpdateThreshold = 0 then some .zeroHostUpdateThreshold
  else if c.cluster.electionThreshold ≤ c.cluster.hostUpdateThreshold then
    some (.electionThreshold c.cluster.electionThreshold c.cluster.hostUpdateThreshold)
  else none

/-- A configuration that keeps all rules. -/
def validate (c : Config) : Except Error Unit :=
  match c.fault? with
  | some fault => .error (.config fault)
  | none => .ok ()

theorem validate_eq_ok_iff {c : Config} : c.validate = .ok () ↔ c.fault? = none := by
  unfold validate
  cases c.fault? with
  | none => exact iff_of_true rfl rfl
  | some fault => exact iff_of_false nofun nofun

end Config

end LogShipping
