import LogShipping.Cli.Address
import LogShipping.Cli.Help
import LogShipping.Cli.LogFilter
import LogShipping.Cluster.Timeline
import LogShipping.Config.Decode
import LogShipping.Store.Opening

/-!
# The program

What the program does with its arguments: it runs a node, writes a configuration file, or checks one.
All that it needs of the outside is in `Surroundings`; all that it tells is in a `Report`.
-/

namespace LogShipping.Cli

/-! ## Surroundings and reports -/

/-- What the program finds around itself. -/
structure Surroundings (m : Type → Type) where
  /-- The text of a file. -/
  readText : (path : String) → m (Except FileFault String)
  /-- Writes a text to a file. -/
  writeText : (path content : String) → m (Except FileFault Unit)
  /-- Opens the store of a configuration. -/
  openStore : Config → m (Except Error Store)
  /-- Whether an address can be listened at. -/
  listens : (address : String) → m Bool
  /-- The present time. -/
  clock : m Instant

/-- What the program tells, and the code that it ends with. -/
structure Report where
  /-- The code. -/
  exit : Nat
  /-- What it writes to its output. -/
  out : String := ""
  /-- What it writes about its failure. -/
  err : String := ""
  deriving DecidableEq, Repr

namespace Report

/-- The code of a failed task. -/
def failed : Nat := 1

/-- The code for arguments that are not understood. -/
def misused : Nat := 2

/-- The code of a program that broke down. -/
def brokenDown : Nat := 101

/-- A failure for a reason. -/
def failure (reason : String) : Report := { exit := failed, err := s!"Error: {reason}\n" }

/-- A failure for a reason that has a cause. -/
def failureBy (reason cause : String) : Report :=
  failure s!"{reason}\n\nCaused by:\n    {cause}"

/-- A report with remarks in front of it, each on a line of its own. -/
def after (remarks : List String) (r : Report) : Report :=
  { r with err := String.join (remarks.map (· ++ "\n")) ++ r.err }

/-- What the program tells when it has no task. -/
def ofStop : Stop → Report
  | .help topic => { exit := 0, out := helpText topic }
  | .version => { exit := 0, out := versionText }
  | .misuse => { exit := misused, err := helpText .program }

end Report

/-! ## Writing a configuration file -/

/-- The lines that tell a new node its part. -/
def partLines (master : Bool) : String :=
  if master then "master = true"
  else "master = false\nmaster_address = \"http://master.example.com:7700\""

/-- A new configuration file. -/
def newConfig (url : String) (master : Bool) : String :=
  "# WolfKV Configuration\n# Generated configuration file\n\n" ++
  s!"[node]\nurl = \"{url}\"\n" ++
  "bind_address = \"0.0.0.0:7700\"\ndata_dir = \"/var/lib/wolfkv\"\n\n" ++
  s!"[cluster]\n{partLines master}\n" ++
  "shared_secret = \"change-me\"\nread_log_limit = 500\nhost_update_threshold = 3\n" ++
  "election_threshold = 10\nbusy_interval_ms = 50\nidle_interval_ms = 1000\n" ++
  "request_timeout_ms = 5000\nhost_refresh_interval_ms = 5000\npush_queue_size = 1024\n\n" ++
  "[store]\nbackend = \"sqlite\"\n# path = \"/var/lib/wolfkv/wolfkv.db\"\n\n" ++
  "[logging]\nlevel = \"info\"\nformat = \"pretty\"\n"

/-- What is told once a configuration file has been written. -/
def createdText (output : String) : String :=
  s!"Configuration file created: {output}\n\n" ++
  "Set cluster.shared_secret to the same value on every node.\n" ++
  s!"Then start with: wolfkv start --config {output}\n"

/-! ## Checking a configuration file -/

/-- What is told about a good configuration. -/
def configText (c : Config) : String :=
  let role := if c.cluster.master then "master" else "follower"
  let master := match c.masterAddress with
    | some address => s!"  Master:       {address}\n"
    | none => ""
  "Configuration is valid\n" ++
  s!"  Node URL:     {c.node.url}\n" ++
  s!"  Bind Address: {c.node.bindAddress}\n" ++
  s!"  Role:         {role}\n" ++ master ++
  s!"  Store:        {c.store.backend.title} at {c.storePath}\n"

/-- The configuration of a file. -/
def configOf (content : Except FileFault String) : Except Error Config :=
  match content with
  | .error fault => .error (.io fault.message)
  | .ok text => Config.ofText text

/-- What is told about a configuration file. -/
def checkReport (content : Except FileFault String) : Report :=
  match configOf content with
  | .ok c => { exit := 0, out := configText c }
  | .error error =>
    { exit := Report.failed
      err := s!"Configuration error: {error.message}\nError: {error.message}\n" }

/-! ## Running a node -/

/-- The configuration of a node that starts, or why it does not. -/
def startConfig (path : String) (master : Bool) (content : Except FileFault String) :
    Except Report Config := do
  let text ← content.mapError fun fault =>
    Report.failureBy s!"failed to read {path}" fault.message
  let c ← (Config.parse text).mapError fun error =>
    Report.failureBy s!"failed to load configuration from {path}" error.message
  -- The rules are checked after the command line has had its say.
  let c := if master then { c with cluster := { c.cluster with master := true } } else c
  c.validate.mapError fun error => Report.failure error.message
  return c

/-- The life of a node that has no others around it and does not reach itself; nothing if it does not
end by itself. -/
def liveAlone (now : Instant) (n : Node) : Option (Except Error Unit) :=
  let nodes : Std.ExtTreeMap String Node := (∅ : Std.ExtTreeMap String Node).insert n.url n
  ((Cluster.perform n.url Lifecycle.run).run { now := now, nodes := nodes, down := [n.url] }).1

/-- The greatest size of a push queue that can be kept. -/
def queueLimit : Nat := 2305843009213693951

/-- The report on a node over an opened store. A node that does not end by itself runs until it is
interrupted, which is no failure. A master that has no pause between its rounds breaks down, and so does
the program if the push queue is too large; what is written then begins with an empty line. -/
def nodeReport (c : Config) (s : Store) (listens : Bool) (now : Instant) : Report :=
  match ((Node.start c.setup now).run.run s).1 with
  | .error error => .failureBy "key-space recovery failed" error.message
  | .ok n =>
    if queueLimit < c.cluster.pushQueueSize then { exit := Report.brokenDown, err := "\n" }
    else if n.standing.isMaster && c.cluster.hostRefreshInterval == 0 then
      (Report.failure "replication task aborted").after [""]
    else if !listens then .failureBy "replication endpoint failed" s!"cannot listen at {c.node.bindAddress}"
    else
      match liveAlone now n with
      | some (.error error) => .failureBy "replication failed" error.message
      | _ => { exit := 0 }

/-! ## Tasks -/

/-- Does what the program was asked for. -/
def perform {m : Type → Type} [Monad m] (around : Surroundings m) : Task → m Report
  | .init output url master => do
    match ← around.writeText output (newConfig url master) with
    | .ok () => return { exit := 0, out := createdText output }
    | .error fault => return .failureBy s!"failed to write {output}" fault.message
  | .validate path => return checkReport (← around.readText path)
  | .start path logLevel master => do
    match startConfig path master (← around.readText path) with
    | .error report => return report
    | .ok c =>
      let remarks := LogFilter.remarks (logLevel.getD c.logging.level)
      match ← around.openStore c with
      | .error error =>
        return (Report.failureBy "failed to open store" error.message).after remarks
      | .ok s =>
        let report := nodeReport c s (← around.listens c.node.bindAddress) (← around.clock)
        return report.after remarks

/-- Runs the program on its arguments. -/
def run {m : Type → Type} [Monad m] (around : Surroundings m) (args : List String) : m Report := do
  match readArguments args with
  | .error stop => return .ofStop stop
  | .ok task => perform around task

/-! ## On a disk -/

/-- A piece of work on a disk that may fail. -/
def onDisk {ε α : Type} (work : Disk → Except ε (α × Disk)) : StateM Disk (Except ε α) := fun d =>
  match work d with
  | .ok (value, d) => (.ok value, d)
  | .error fault => (.error fault, d)

/-- The surroundings that consist of a disk and a clock that stands still. -/
def diskSurroundings (now : Instant) : Surroundings (StateM Disk) where
  readText path := do return (← get).readText path
  writeText path content := onDisk fun d => (d.writeText path content).map fun d => ((), d)
  openStore c := Store.openFor c
  listens address := return isLocalAddress address
  clock := return now

end LogShipping.Cli
