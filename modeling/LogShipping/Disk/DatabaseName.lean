import LogShipping.Text.Digits
import LogShipping.Text.Utf8

/-!
# Names of databases

A database is named by a path. Behind the scheme `file:` the path may be followed by options and by a
fragment, which counts for nothing, and an octet may be written as a percent sign with two hexadecimal
digits. The options say what may be done to the file; later ones may only take from what earlier ones
allow.
-/

namespace LogShipping

/-! ## Access -/

/-- What may be done to the file of a database. -/
inductive DatabaseAccess where
  /-- It is read. -/
  | read
  /-- It is read and written. -/
  | write
  /-- It is also made if it is missing. -/
  | create
  /-- There is no file. -/
  | memory
  deriving DecidableEq, Repr

namespace DatabaseAccess

/-- The access that an option names. -/
def ofName? : String → Option DatabaseAccess
  | "ro" => some .read
  | "rw" => some .write
  | "rwc" => some .create
  | "memory" => some .memory
  | _ => none

/-- Whether an option may turn the first access into the second. -/
def allows : DatabaseAccess → DatabaseAccess → Bool
  | .memory, _ | _, .memory | .create, _ | .write, .write | _, .read => true
  | _, _ => false

end DatabaseAccess

/-! ## Names -/

/-- A name of a database. -/
structure DatabaseName where
  /-- The path of its file. -/
  path : String
  /-- What may be done to the file. -/
  access : DatabaseAccess := .create
  /-- The file system that the file is kept in. -/
  system : String := "unix"
  /-- Whether the file is said never to change, if anything is said about that. -/
  immutable : Option Bool := none
  deriving DecidableEq, Repr

namespace DatabaseName

/-- The file system that keeps its files in memory. -/
def memorySystem : String := "memdb"

/-- The file systems that there are. -/
def systems : List String := ["unix", "unix-none", "unix-dotfile", "unix-excl", memorySystem]

/-- Whether no file holds the database. -/
def isTransient (n : DatabaseName) : Bool :=
  n.path.isEmpty || n.path == ":memory:" || n.access == .memory || n.system == memorySystem

/-- Whether the database is never written. -/
def isReadOnly (n : DatabaseName) : Bool :=
  n.access == .read || (n.immutable.getD false && !n.isTransient)

/-! ## Reading names -/

/-- The octets that characters stand for, up to an octet of value zero. -/
def octets : List Char → Bytes
  | '%' :: a :: b :: rest =>
    match Text.digit? 16 a, Text.digit? 16 b with
    | some high, some low =>
      if high = 0 ∧ low = 0 then [] else UInt8.ofNat (high * 16 + low) :: octets rest
    | _, _ => Bytes.ofString "%" ++ octets (a :: b :: rest)
  | c :: rest => Bytes.ofString (String.singleton c) ++ octets rest
  | [] => []

/-- The text that characters stand for; octets that are no text are replaced one by one. -/
def unescaped (chars : List Char) : String :=
  match Utf8.decode (octets chars) with
  | .ok text => text
  | .error _ =>
    String.ofList ((octets chars).map fun b => if b < 128 then Char.ofNat b.toNat else '\uFFFD')

/-- Whether a text says yes: in words, or by a number that is not zero modulo 256. -/
def saysYes (text : String) : Bool :=
  let digits := text.toList.takeWhile Char.isDigit
  if digits.isEmpty then ["on", "yes", "true"].contains text.toLower
  else (Text.appendDigits? 10 0 digits).any fun n => n % 256 != 0

/-- A name with one more option. -/
def withOption (n : DatabaseName) (key value : String) : Except String DatabaseName :=
  match key with
  | "vfs" => .ok { n with system := value }
  | "immutable" => .ok { n with immutable := n.immutable <|> some (saysYes value) }
  | "cache" =>
    if value = "shared" ∨ value = "private" then .ok n else .error s!"no such cache mode: {value}"
  | "mode" =>
    match DatabaseAccess.ofName? value with
    | some access =>
      if n.access.allows access then .ok { n with access := access }
      else .error s!"access mode not allowed: {value}"
    | none => .error s!"no such access mode: {value}"
  | _ => .ok n

/-- What follows the host, which can only be this one. -/
def withoutHost : List Char → Except String (List Char)
  | '/' :: '/' :: rest =>
    let host := String.ofList (rest.takeWhile (· ≠ '/'))
    if host = "" ∨ host = "localhost" then .ok (rest.dropWhile (· ≠ '/'))
    else .error s!"invalid uri authority: {host}"
  | rest => .ok rest

/-- The name that follows the scheme. -/
def ofAddress (chars : List Char) : Except String DatabaseName := do
  let chars := (← withoutHost chars).takeWhile (· ≠ '#')
  let path := unescaped (chars.takeWhile (· ≠ '?'))
  let options := (String.ofList ((chars.dropWhile (· ≠ '?')).drop 1)).splitOn "&"
  let n ← options.foldlM (fun n option =>
    let key := option.toList.takeWhile (· ≠ '=')
    n.withOption (unescaped key) (unescaped (option.toList.drop (key.length + 1))))
    { path := path : DatabaseName }
  if systems.contains n.system then return n else throw s!"no such vfs: {n.system}"

/-- Reads a name. -/
def ofText (text : String) : Except String DatabaseName :=
  if text.contains '\x00' then .error "nul byte found in provided data"
  else
    match text.toList with
    | 'f' :: 'i' :: 'l' :: 'e' :: ':' :: rest => ofAddress rest
    | _ => .ok { path := text }

end DatabaseName

end LogShipping
