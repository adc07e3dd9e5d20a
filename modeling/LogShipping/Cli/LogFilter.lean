import LogShipping.Text.Blank
import LogShipping.Text.Digits

/-!
# Log filters

A filter is a list of directives with commas between them. A directive names a target or a level, or
both with an equals sign between them; in place of the target, or behind it, there may be a span in
brackets, perhaps with fields in braces. A directive that cannot be read is ignored, with a remark.
-/

namespace LogShipping.Cli.LogFilter

/-! ## Faults -/

/-- Why a directive is ignored. -/
inductive Fault where
  /-- It is not built like a directive. -/
  | malformed
  /-- What should be a level is none. -/
  | notLevel
  deriving DecidableEq, Repr

/-- The text of a fault. -/
def Fault.message : Fault → String
  | .malformed => "invalid filter directive"
  | .notLevel =>
    "error parsing level filter: expected one of \"off\", \"error\", \"warn\", \"info\", " ++
    "\"debug\", \"trace\", or a number 0-5"

/-! ## Levels -/

/-- The names of the levels. -/
def levels : List String := ["off", "error", "warn", "info", "debug", "trace"]

/-- Whether a text is a level: a name in letters of either case, a number, or nothing. -/
def isLevel (text : String) : Bool :=
  text.isEmpty || levels.contains text.toLower ||
    ((Text.word32? text).filter (·.toNat < levels.length)).isSome

/-! ## Directives -/

/-- Ranges of punctuation and symbols beyond ASCII. -/
def symbolRanges : List (Nat × Nat) :=
  [(0xA1, 0xA9), (0xAB, 0xB1), (0xB4, 0xB4), (0xB6, 0xB8), (0xBB, 0xBB), (0xBF, 0xBF), (0xD7, 0xD7),
   (0xF7, 0xF7), (0x2010, 0x206F), (0x207A, 0x207E), (0x208A, 0x208E), (0x20A0, 0x20CF),
   (0x2190, 0x245F), (0x2500, 0x2775), (0x2794, 0x2BFF), (0x2E00, 0x2E7F), (0x3001, 0x3004),
   (0x3008, 0x3020), (0xFF01, 0xFF0F), (0xFF1A, 0xFF20), (0x1F000, 0x1F0FF), (0x1F200, 0x1FAFF)]

/-- Whether a character is a letter or a digit. -/
def isWordCharacter (c : Char) : Bool :=
  if c.toNat < 128 then c.isAlphanum
  else !Text.isBlank c && !symbolRanges.any fun r => r.1 ≤ c.toNat && c.toNat ≤ r.2

/-- Whether a directive without a span may begin with a character. -/
def mayBegin (c : Char) : Bool := isWordCharacter c || c == '-' || c == ':' || c == '_'

/-- What a directive has been read up to. -/
inductive Stage where
  | start
  /-- Within a target or a level. -/
  | target
  /-- Within the name of a span. -/
  | span
  /-- Within a field. -/
  | field (isEmpty : Bool)
  /-- Behind the fields. -/
  | fields
  /-- Behind a span. -/
  | spanEnd
  /-- Within the level that begins at a position. -/
  | level (position : Nat)
  deriving DecidableEq, Repr

/-- The stage one character further, the one at `position`. -/
def Stage.next? (position : Nat) : Stage → Char → Option Stage
  | .start, '[' => some .span
  | .start, c => if mayBegin c then some .target else none
  | .target, '=' => some (.level (position + 1))
  | .target, '[' => some .span
  | .target, _ => some .target
  | .span, ']' => some .spanEnd
  | .span, '\x7b' => some (.field true)
  | .span, _ => some .span
  | .field isEmpty, '\x7d' => if isEmpty then none else some .fields
  | .field _, _ => some (.field false)
  | .fields, ']' => some .spanEnd
  | .spanEnd, '=' => some (.level (position + 1))
  | .level since, _ => some (.level since)
  | _, _ => none

/-- The stage after characters, the first of which is at `position`. -/
def Stage.after? (position : Nat) (stage : Stage) : List Char → Option Stage
  | [] => some stage
  | c :: rest => (stage.next? position c).bind fun stage => stage.after? (position + 1) rest

/-- What is wrong with a directive. Blanks around it are passed over, and yet the level is looked for in
the text with them. -/
def fault? (directive : String) : Option Fault :=
  match Stage.start.after? 0 (Text.trimList directive.toList) with
  | some .target | some .spanEnd => none
  | some (.level position) =>
    if isLevel (String.ofList (directive.toList.drop position)) then none else some .notLevel
  | _ => some .malformed

/-- The remarks on a filter, one for each directive that is ignored. -/
def remarks (filter : String) : List String :=
  ((filter.splitOn ",").filter (!·.isEmpty)).filterMap fun directive =>
    (fault? directive).map fun fault => s!"ignoring `{directive}`: {fault.message}"

end LogShipping.Cli.LogFilter
