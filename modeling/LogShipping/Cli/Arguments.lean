/-!
# Command lines

The arguments of the program: options of the program itself, the name of a task, and options of the
task. An option is named in full behind two hyphens or by a letter behind one; its value is the next
argument or stands in the same one, and no option is given twice. Asking for help or for the version
ends the reading at once; so does the first mistake. A value in an argument of its own is looked at only
when another option follows or no task does, so that help on a task comes before a mistake in it.
-/

namespace LogShipping.Cli

/-! ## Tasks -/

/-- The name of the configuration file unless another one is given. -/
def defaultConfigPath : String := "wolfkv.toml"

/-- The address that a new configuration gives the node unless another one is given. -/
def defaultUrl : String := "http://127.0.0.1:7700"

/-- What the program can be asked to do. -/
inductive Task where
  /-- Run a node. -/
  | start (config : String) (logLevel : Option String) (master : Bool)
  /-- Write a configuration file. -/
  | init (output url : String) (master : Bool)
  /-- Check a configuration file. -/
  | validate (config : String)
  deriving DecidableEq, Repr

/-- What help can be asked about. -/
inductive Topic where
  | program
  | start
  | init
  | validate
  | help
  deriving DecidableEq, Repr

/-- What arguments come to, instead of a task. -/
inductive Stop where
  | help (topic : Topic)
  | version
  /-- They are not understood. -/
  | misuse
  deriving DecidableEq, Repr

/-! ## Options -/

/-- An option. -/
structure OptionKind where
  /-- Its full name. -/
  name : String
  /-- Its letter. -/
  letter : Option Char := none
  /-- Whether it has a value. -/
  hasValue : Bool := true
  /-- Whether its value may be empty. -/
  mayBeEmpty : Bool := false
  /-- What it ends the reading with, if it does. -/
  stop : Option Stop := none
  deriving DecidableEq, Repr

/-- Options with their values, the latest first. -/
abbrev Given := List (String × String)

/-- Takes an option with a value, or an empty one if it has none. -/
def take (given : Given) (kind : OptionKind) (value : String) : Except Stop Given :=
  match kind.stop with
  | some stop => .error stop
  | none =>
    if (given.lookup kind.name).isSome then .error .misuse
    else if kind.hasValue && value.isEmpty && !kind.mayBeEmpty then .error .misuse
    else .ok ((kind.name, value) :: given)

/-- An argument as it is read. -/
inductive Reading where
  /-- It is complete. -/
  | complete (given : Given)
  /-- It ends with an option whose value is the next argument. -/
  | awaiting (given : Given) (kind : OptionKind)

/-- Options as far as they are read. -/
structure Collected where
  /-- Options that are taken. -/
  given : Given := []
  /-- The latest option, if its value stood in an argument of its own and is still to be looked at. -/
  pending : Option (OptionKind × String) := none

/-- Takes the option whose value is still to be looked at. -/
def Collected.settle (c : Collected) : Except Stop Given :=
  match c.pending with
  | none => .ok c.given
  | some (kind, value) => take c.given kind value

/-- Reads letters behind one hyphen. A letter with a value takes all that follows it as its value, an
equals sign in between left out. -/
def readLetters (kinds : List OptionKind) (given : Given) : List Char → Except Stop Reading
  | [] => .ok (.complete given)
  | c :: rest =>
    match kinds.find? fun kind => kind.letter == some c with
    | none => .error .misuse
    | some kind =>
      if kind.hasValue then
        match rest with
        | [] => .ok (.awaiting given kind)
        | '=' :: value => (take given kind (String.ofList value)).map .complete
        | value => (take given kind (String.ofList value)).map .complete
      else do
        let given ← take given kind ""
        readLetters kinds given rest

/-- Reads a full name behind two hyphens, perhaps with a value behind an equals sign. -/
def readName (kinds : List OptionKind) (given : Given) (chars : List Char) : Except Stop Reading :=
  let name := String.ofList (chars.takeWhile (· != '='))
  match kinds.find? fun kind => kind.name == name, chars.dropWhile (· != '=') with
  | none, _ => .error .misuse
  | some kind, [] =>
    if kind.hasValue then .ok (.awaiting given kind) else (take given kind "").map .complete
  | some kind, _ :: value =>
    if kind.hasValue then (take given kind (String.ofList value)).map .complete else .error .misuse

/-- Whether an argument is a value rather than an option. -/
def isValue (arg : String) : Bool := !arg.startsWith "-" || arg == "-"

/-- Reads options up to the first argument that is none. Behind two hyphens alone there are no options,
and nothing else is expected there. -/
def readOptions (kinds : List OptionKind) (collected : Collected) :
    List String → Except Stop (Collected × List String)
  | [] => .ok (collected, [])
  | arg :: rest =>
    if isValue arg then .ok (collected, arg :: rest)
    else if arg == "--" then if rest.isEmpty then .ok (collected, []) else .error .misuse
    else do
      let given ← collected.settle
      let reading ← match arg.toList with
        | '-' :: '-' :: name => readName kinds given name
        | _ :: letters => readLetters kinds given letters
        | [] => .error .misuse
      -- An option may still wait for its value, which no option can be.
      match reading, rest with
      | .complete given, rest => readOptions kinds ⟨given, none⟩ rest
      | .awaiting given kind, value :: rest =>
        if isValue value then readOptions kinds ⟨given, some (kind, value)⟩ rest
        else .error .misuse
      | .awaiting _ _, [] => .error .misuse

/-! ## Reading command lines -/

/-- The option that asks for help. -/
def helpOption (topic : Topic) : OptionKind :=
  { name := "help", letter := some 'h', hasValue := false, stop := some (.help topic) }

/-- The option that names a file. -/
def fileOption (name : String) (letter : Char) : OptionKind := { name := name, letter := some letter }

/-- The option that makes a master. -/
def masterOption : OptionKind := { name := "master", hasValue := false }

/-- The options of the program itself. -/
def programOptions : List OptionKind :=
  [fileOption "config" 'c', { name := "log-level", letter := some 'l', mayBeEmpty := true },
   helpOption .program,
   { name := "version", letter := some 'V', hasValue := false, stop := some .version }]

/-- The name of the configuration file among the options of the program. -/
def configOption (program : Given) : String := (program.lookup "config").getD defaultConfigPath

/-- Reads the options of a task, behind which nothing else is expected. -/
def readTask (kinds : List OptionKind) (args : List String) : Except Stop Given := do
  let (collected, rest) ← readOptions kinds {} args
  if rest.isEmpty then collected.settle else throw .misuse

/-- The topic of a request for help in words. -/
def topicOf : List String → Option Topic
  | [] => some .program
  | ["start"] => some .start
  | ["init"] => some .init
  | ["validate"] => some .validate
  | ["help"] => some .help
  | _ => none

/-- The task that arguments ask for. -/
def readArguments (args : List String) : Except Stop Task := do
  let (collected, rest) ← readOptions programOptions {} args
  match rest with
  | "start" :: rest =>
    let given ← readTask [masterOption, helpOption .start] rest
    let program ← collected.settle
    return .start (configOption program) (program.lookup "log-level") (given.lookup "master").isSome
  | "init" :: rest =>
    let url : OptionKind := { name := "url", mayBeEmpty := true }
    let given ← readTask [fileOption "output" 'o', url, masterOption, helpOption .init] rest
    let _ ← collected.settle
    return .init ((given.lookup "output").getD defaultConfigPath)
      ((given.lookup "url").getD defaultUrl) (given.lookup "master").isSome
  | "validate" :: rest =>
    let _ ← readTask [helpOption .validate] rest
    return .validate (configOption (← collected.settle))
  | "help" :: rest =>
    match topicOf rest with
    | some topic => throw (.help topic)
    | none => throw .misuse
  | _ => throw .misuse

end LogShipping.Cli
