import LogShipping.Cli.Arguments

/-!
# Help

What the program prints about itself: its purpose, its usage, and its tasks and options in two
columns.
-/

namespace LogShipping.Cli

/-- The name and the version of the program. -/
def versionText : String := "wolfkv 0.3.1\n"

/-- Lines in two columns, the second one starting two blanks after the widest first one. -/
def columns (rows : List (String × String)) : String :=
  let width := (rows.map fun row => row.1.length).foldl max 0
  String.join (rows.map fun (left, right) =>
    "  " ++ left ++ String.ofList (List.replicate (width - left.length + 2) ' ') ++ right ++ "\n")

/-- A page of help: a purpose, a usage, and parts with a heading each. -/
def helpPage (purpose usage : String) (parts : List (String × List (String × String))) : String :=
  purpose ++ "\n\nUsage: " ++ usage ++ "\n" ++
    String.join (parts.map fun (heading, rows) => "\n" ++ heading ++ ":\n" ++ columns rows)

/-- The row of the option that asks for help. -/
def helpRow : String × String := ("-h, --help", "Print help")

/-- What help there is about a topic. -/
def helpText : Topic → String
  | .program =>
    helpPage "Replicated ordered key-value core with log shipping and master failover"
      "wolfkv [OPTIONS] <COMMAND>"
      [("Commands",
        [("start", "Start the WolfKV node"),
         ("init", "Initialize a new configuration file"),
         ("validate", "Validate configuration file"),
         ("help", "Print this message or the help of the given subcommand(s)")]),
       ("Options",
        [("-c, --config <CONFIG>",
          s!"Path to configuration file [default: {defaultConfigPath}]"),
         ("-l, --log-level <LOG_LEVEL>", "Log level override (trace, debug, info, warn, error)"),
         helpRow,
         ("-V, --version", "Print version")])]
  | .start =>
    helpPage "Start the WolfKV node" "wolfkv start [OPTIONS]"
      [("Options",
        [("    --master", "Start as master regardless of the configuration file"), helpRow])]
  | .init =>
    helpPage "Initialize a new configuration file" "wolfkv init [OPTIONS]"
      [("Options",
        [("-o, --output <OUTPUT>",
          s!"Output path for configuration file [default: {defaultConfigPath}]"),
         ("    --url <URL>", s!"Advertised URL of the node [default: {defaultUrl}]"),
         ("    --master", "Generate a master configuration"),
         helpRow])]
  | .validate =>
    helpPage "Validate configuration file" "wolfkv validate" [("Options", [helpRow])]
  | .help =>
    helpPage "Print this message or the help of the given subcommand(s)"
      "wolfkv help [COMMAND]..."
      [("Arguments", [("[COMMAND]...", "Print help for the subcommand(s)")])]

end LogShipping.Cli
