import LogShipping.Proofs.Http.Exchange

/-!
# Which calls reach the service

A call over HTTP passes a row of checks before the service hears of it. What each check asks for is said
here apart from the code that makes it (`Attempt.Passes`), and so is what it takes to be heard
(`Attempt.Admits`). The two agree: a call that is admitted is answered as the service answers its
message, and any other call is refused with the code of the first check it fails and leaves the node as
it was (`answer_admits`). Whoever does not know the secret gets one and the same response.

What the service hears is found by putting another handler in its place, one that writes its messages
down (`Attempt.heard`). Answering is the same for every handler (`answer_eq_answerBy`), so what reaches
that one reaches the service, and a call that is refused is seen to reach no handler at all.

The bytes of a call are arbitrary here: headers that are no text, bodies that are no messages, commands
that are no numbers. A request that goes to no endpoint is turned away before all this, and so is a body
that is longer than the service takes; a call is taken to be past both. How long a check takes is not
looked at, only what it answers.
-/

namespace LogShipping.Http

/-! ## What a header says -/

/-- A header says a text: its first value is made of visible characters of the ASCII range, blanks and
tabs included, and spells the text. -/
def Says (headers : List Header) (name text : String) : Prop :=
  ∃ value, header? headers name = some value ∧ (∀ b ∈ value, isReadable b = true) ∧
    value = Bytes.ofString text

theorem toNat_lt_of_isReadable {b : UInt8} (h : isReadable b = true) : b.toNat < 128 := by
  simp only [isReadable, Bool.or_eq_true, Bool.and_eq_true, decide_eq_true_eq, beq_iff_eq,
    UInt8.lt_iff_toNat_lt, ← UInt8.toNat_inj] at h
  rcases h with ⟨-, hlt⟩ | heq
  · exact Nat.lt_of_lt_of_le hlt (by decide)
  · rw [heq]
    decide

/-- A value of visible characters is read as the text that it spells. -/
theorem readable?_eq_some_iff {value : Bytes} {text : String} :
    readable? value = some text ↔ (∀ b ∈ value, isReadable b = true) ∧ value = Bytes.ofString text := by
  unfold readable?
  split
  · next hall =>
    rw [List.all_eq_true] at hall
    have hascii : Bytes.ofString (Bytes.asText value) = value :=
      Bytes.ofString_asText fun b hb => toNat_lt_of_isReadable (hall b hb)
    constructor
    · intro h
      rw [← Option.some.inj h]
      exact ⟨hall, hascii.symm⟩
    · rintro ⟨-, hvalue⟩
      exact congrArg some (Bytes.ofString_inj (hascii.trans hvalue))
  · next hall => exact ⟨nofun, fun h => absurd (List.all_eq_true.mpr h.1) hall⟩

theorem headerText?_eq_some_iff {headers : List Header} {name text : String} :
    headerText? headers name = some text ↔ Says headers name text := by
  unfold headerText? Says
  rw [Option.bind_eq_some_iff]
  simp only [readable?_eq_some_iff]

/-! ## What the checks ask for -/

/-- A call as it arrives at an endpoint of a node with a secret. -/
structure Attempt where
  /-- The secret of the node. -/
  secret : String
  /-- The endpoint. -/
  endpoint : Endpoint
  /-- The headers. -/
  headers : List Header
  /-- The body. -/
  body : Bytes

/-- The checks of a call, in order. -/
inductive Check where
  /-- The caller knows the secret. -/
  | secret
  /-- A header says something about the command. -/
  | header
  /-- What it says is a number. -/
  | number
  /-- The number is that of a command. -/
  | command
  /-- The endpoint serves the command. -/
  | endpoint
  /-- The body is text. -/
  | text
  /-- The text is that of a message. -/
  | message
  /-- The message is of the command. -/
  | agreement
  deriving DecidableEq, Repr

namespace Check

/-- All checks, in the order in which they are made. -/
def all : List Check := [secret, header, number, command, endpoint, text, message, agreement]

/-- The code of the error that a failed check is answered with. -/
def code : Check → ErrorCode
  | secret => .unauthorized
  | command => .unknownCommand
  | _ => .protocol

end Check

theorem number_of_ofNumber? {number : UInt32} {c : Command}
    (h : Command.ofNumber? number = some c) : c.number = number := by
  have hfound := List.find?_some h
  exact beq_iff_eq.mp hfound

namespace Attempt

/-- The request that the call comes as. -/
def request (a : Attempt) : Request := ⟨"POST", a.endpoint.path, a.headers, a.body⟩

/-- The caller gives the secret; a header that is absent or unreadable gives the empty one. -/
def KnowsSecret (a : Attempt) : Prop :=
  Says a.headers secretHeader a.secret ∨ (a.secret = "" ∧ ∀ text, ¬Says a.headers secretHeader text)

/-- The header of the command says the number of a command. -/
def Names (a : Attempt) (c : Command) : Prop :=
  ∃ text, Says a.headers commandHeader text ∧ Text.word32? text = some c.number

/-- The body is the text of a message. -/
def Holds (a : Attempt) (m : Message) : Prop :=
  ∃ text, a.body = Bytes.ofString text ∧ Message.ofBody text = .ok m

/-- What it takes for a message to be heard by the service. -/
structure Admits (a : Attempt) (m : Message) : Prop where
  secret : a.KnowsSecret
  command : a.Names m.command
  served : a.endpoint.accepts m.command = true
  message : a.Holds m

/-- What each check asks of a call. -/
def Passes (a : Attempt) : Check → Prop
  | .secret => a.KnowsSecret
  | .header => ∃ text, Says a.headers commandHeader text
  | .number => ∃ text number, Says a.headers commandHeader text ∧ Text.word32? text = some number
  | .command => ∃ c, a.Names c
  | .endpoint => ∃ c, a.Names c ∧ a.endpoint.accepts c = true
  | .text => ∃ text, a.body = Bytes.ofString text
  | .message => ∃ m, a.Holds m
  | .agreement => ∃ m, a.Holds m ∧ a.Names m.command

/-- A check is the first one that a call fails. -/
def FailsFirst (a : Attempt) (check : Check) : Prop :=
  ¬a.Passes check ∧ ∃ before after, Check.all = before ++ check :: after ∧ ∀ c ∈ before, a.Passes c

variable {a : Attempt}

theorem Admits.passes {m : Message} (h : a.Admits m) (check : Check) : a.Passes check := by
  obtain ⟨text, hsaid, hnumber⟩ := h.command
  cases check with
  | secret => exact h.secret
  | header => exact ⟨text, hsaid⟩
  | number => exact ⟨text, _, hsaid, hnumber⟩
  | command => exact ⟨m.command, h.command⟩
  | endpoint => exact ⟨m.command, h.command, h.served⟩
  | text => exact ⟨h.message.choose, h.message.choose_spec.1⟩
  | message => exact ⟨m, h.message⟩
  | agreement => exact ⟨m, h.message, h.command⟩

/-! ## What the code decides -/

theorem knowsSecret_iff :
    a.KnowsSecret ↔ (headerText? a.headers secretHeader).getD "" = a.secret := by
  unfold KnowsSecret
  simp only [← headerText?_eq_some_iff]
  cases headerText? a.headers secretHeader with
  | none =>
    constructor
    · rintro (hsaid | ⟨hempty, -⟩)
      · cases hsaid
      · exact hempty.symm
    · exact fun hempty => Or.inr ⟨hempty.symm, nofun⟩
  | some given =>
    constructor
    · rintro (hsaid | ⟨-, hnone⟩)
      · exact Option.some.inj hsaid
      · exact absurd rfl (hnone given)
    · exact fun hgiven => Or.inl (congrArg some hgiven)

theorem says_unique {headers : List Header} {name text other : String} (h : Says headers name text)
    (h' : Says headers name other) : text = other := by
  rw [← headerText?_eq_some_iff] at h h'
  exact Option.some.inj (h.symm.trans h')

theorem Holds.unique {m m' : Message} (h : a.Holds m) (h' : a.Holds m') : m = m' := by
  obtain ⟨text, hbody, hm⟩ := h
  obtain ⟨text', hbody', hm'⟩ := h'
  obtain rfl := Bytes.ofString_inj (hbody.symm.trans hbody')
  exact Except.ok.inj (hm.symm.trans hm')

theorem word32?_of_names {text : String} {c : Command} (hsaid : Says a.headers commandHeader text)
    (h : a.Names c) : Text.word32? text = some c.number := by
  obtain ⟨other, hother, hnumber⟩ := h
  rwa [says_unique hsaid hother]

theorem Names.unique {c c' : Command} (h : a.Names c) (h' : a.Names c') : c = c' := by
  obtain ⟨text, hsaid, hnumber⟩ := h
  have hsame := hnumber.symm.trans (word32?_of_names hsaid h')
  have hcommand := congrArg Command.ofNumber? (Option.some.inj hsame)
  rw [Command.ofNumber?_number, Command.ofNumber?_number] at hcommand
  exact Option.some.inj hcommand

theorem passes_snoc {checks : List Check} {check : Check} (h : ∀ c ∈ checks, a.Passes c)
    (hcheck : a.Passes check) : ∀ c ∈ checks ++ [check], a.Passes c :=
  List.forall_mem_append.mpr ⟨h, List.forall_mem_singleton.mpr hcheck⟩

/-- A check that fails behind others that pass. -/
theorem failsFirst_of {check : Check} {before after : List Check} (hfails : ¬a.Passes check)
    (hall : Check.all = before ++ check :: after) (hpass : ∀ c ∈ before, a.Passes c) :
    a.FailsFirst check := ⟨hfails, before, after, hall, hpass⟩

/-- The outcome of the checks of a call. -/
def read (a : Attempt) : Except Error Message := readCall a.secret a.endpoint a.headers a.body

/-- The outcome of the checks that are left once the command is known. -/
def readAs (a : Attempt) (c : Command) : Except Error Message :=
  if a.endpoint.accepts c = true then
    match Utf8.decode a.body with
    | .error _ => .error (.protocol .bodyNotText)
    | .ok text =>
      match Message.ofBody text with
      | .error fault => .error (.protocol (.body fault))
      | .ok m =>
        if m.command = c then .ok m else .error (.protocol (.commandMismatch c m.command))
  else .error (.protocol (.notServed c a.endpoint))

theorem read_of_stranger (h : ¬a.KnowsSecret) : a.read = .error .unauthorized := by
  have hmatch : ¬secretsMatch (Bytes.ofString ((headerText? a.headers secretHeader).getD ""))
      (Bytes.ofString a.secret) = true := by
    rw [secretsMatch_iff]
    exact fun heq => h (knowsSecret_iff.mpr (Bytes.ofString_inj heq))
  simp only [read, readCall, if_neg hmatch]
  rfl

theorem read_of_knows (h : a.KnowsSecret) : a.read =
    match headerText? a.headers commandHeader with
    | none => .error (.protocol .missingCommand)
    | some text =>
      match Text.word32? text with
      | none => .error (.protocol .commandNotNumber)
      | some number =>
        match Command.ofNumber? number with
        | none => .error (.unknownCommand number)
        | some c => a.readAs c := by
  have hmatch : secretsMatch (Bytes.ofString ((headerText? a.headers secretHeader).getD ""))
      (Bytes.ofString a.secret) = true := by
    rw [secretsMatch_iff, knowsSecret_iff.mp h]
  simp only [read, readCall, if_pos hmatch]
  cases headerText? a.headers commandHeader with
  | none => rfl
  | some text =>
  dsimp only
  cases Text.word32? text with
  | none => rfl
  | some number =>
  dsimp only
  cases Command.ofNumber? number with
  | none => rfl
  | some c =>
  dsimp only [readAs, bodyText]
  cases a.endpoint.accepts c with
  | false => rfl
  | true =>
  cases Utf8.decode a.body with
  | error fault => rfl
  | ok text =>
  cases hm : Message.ofBody text with
  | error fault => simp only [if_true, Except.mapError, bind, Except.bind, hm]
  | ok m =>
  simp only [if_true, Except.mapError, bind, Except.bind, hm]
  split <;> rfl

/-- The checks behind the command let the message of the body through, or they end with an error of
the first of them that fails. -/
theorem readAs_cases {c : Command} (hsecret : a.KnowsSecret) (hnames : a.Names c) :
    (∃ m, a.Admits m ∧ a.readAs c = .ok m) ∨
      ∃ check error, a.FailsFirst check ∧ error.code = check.code ∧ a.readAs c = .error error := by
  obtain ⟨text, hsaid, hnumber⟩ := hnames
  have hcommand : a.Names c := ⟨text, hsaid, hnumber⟩
  have hpassed : ∀ check ∈ [Check.secret, .header, .number, .command], a.Passes check := by
    simp only [List.forall_mem_cons, List.not_mem_nil, false_imp_iff, implies_true, and_true]
    exact ⟨hsecret, ⟨text, hsaid⟩, ⟨text, _, hsaid, hnumber⟩, ⟨c, hcommand⟩⟩
  unfold readAs
  by_cases hserved : a.endpoint.accepts c = true
  swap
  · rw [if_neg hserved]
    refine Or.inr ⟨.endpoint, _, failsFirst_of ?_ rfl hpassed, rfl, rfl⟩
    rintro ⟨other, hother, haccepts⟩
    exact hserved (hcommand.unique hother ▸ haccepts)
  rw [if_pos hserved]
  have hendpoint : a.Passes .endpoint := ⟨c, hcommand, hserved⟩
  have hpassed : ∀ check ∈ [Check.secret, .header, .number, .command, .endpoint], a.Passes check :=
    passes_snoc hpassed hendpoint
  cases hdecode : Utf8.decode a.body with
  | error fault =>
    refine Or.inr ⟨.text, _, failsFirst_of ?_ rfl hpassed, rfl, rfl⟩
    rintro ⟨text, hbody⟩
    rw [Utf8.decode_eq_ok_iff.mpr hbody] at hdecode
    cases hdecode
  | ok text =>
  have hbody := Utf8.decode_eq_ok_iff.mp hdecode
  have htext : a.Passes .text := ⟨text, hbody⟩
  have hpassed : ∀ check ∈ [Check.secret, .header, .number, .command, .endpoint, .text],
      a.Passes check :=
    passes_snoc hpassed htext
  dsimp only
  cases hm : Message.ofBody text with
  | error fault =>
    refine Or.inr ⟨.message, _, failsFirst_of ?_ rfl hpassed, rfl, rfl⟩
    rintro ⟨m, other, hother, hm'⟩
    rw [← Bytes.ofString_inj (hbody.symm.trans hother), hm] at hm'
    cases hm'
  | ok m =>
  have hholds : a.Holds m := ⟨text, hbody, hm⟩
  have hmessage : a.Passes .message := ⟨m, hholds⟩
  have hpassed : ∀ check ∈ [Check.secret, .header, .number, .command, .endpoint, .text, .message],
      a.Passes check :=
    passes_snoc hpassed hmessage
  dsimp only
  split
  · next hagrees => exact Or.inl ⟨m, ⟨hsecret, hagrees ▸ hcommand, hagrees ▸ hserved, hholds⟩, rfl⟩
  · next hdiffers =>
    refine Or.inr ⟨.agreement, _, failsFirst_of ?_ rfl hpassed, rfl, rfl⟩
    rintro ⟨other, hother, hnames⟩
    rw [← hholds.unique hother] at hnames
    exact hdiffers (hnames.unique hcommand)

/-- The checks let a message through that the call is admitted with, or they end with an error of the
first check that the call fails. -/
theorem read_cases (a : Attempt) :
    (∃ m, a.Admits m ∧ a.read = .ok m) ∨
      ∃ check error, a.FailsFirst check ∧ error.code = check.code ∧ a.read = .error error := by
  by_cases hsecret : a.KnowsSecret
  swap
  · have hpassed : ∀ check ∈ ([] : List Check), a.Passes check := nofun
    exact Or.inr ⟨.secret, _, failsFirst_of hsecret rfl hpassed, rfl, read_of_stranger hsecret⟩
  rw [read_of_knows hsecret]
  have hpassed : ∀ check ∈ [Check.secret], a.Passes check := List.forall_mem_singleton.mpr hsecret
  cases hheader : headerText? a.headers commandHeader with
  | none =>
    refine Or.inr ⟨.header, _, failsFirst_of ?_ rfl hpassed, rfl, rfl⟩
    rintro ⟨text, hsaid⟩
    rw [headerText?_eq_some_iff.mpr hsaid] at hheader
    cases hheader
  | some text =>
  have hsaid := headerText?_eq_some_iff.mp hheader
  have hfound : a.Passes .header := ⟨text, hsaid⟩
  have hpassed : ∀ check ∈ [Check.secret, .header], a.Passes check :=
    passes_snoc hpassed hfound
  dsimp only
  cases hnumber : Text.word32? text with
  | none =>
    refine Or.inr ⟨.number, _, failsFirst_of ?_ rfl hpassed, rfl, rfl⟩
    rintro ⟨other, number, hother, hparses⟩
    rw [says_unique hother hsaid, hnumber] at hparses
    cases hparses
  | some number =>
  have hparses : a.Passes .number := ⟨text, number, hsaid, hnumber⟩
  have hpassed : ∀ check ∈ [Check.secret, .header, .number], a.Passes check :=
    passes_snoc hpassed hparses
  dsimp only
  cases hcommand : Command.ofNumber? number with
  | none =>
    refine Or.inr ⟨.command, _, failsFirst_of ?_ rfl hpassed, rfl, rfl⟩
    rintro ⟨c, hnames⟩
    have hsame := hnumber.symm.trans (word32?_of_names hsaid hnames)
    rw [Option.some.inj hsame, Command.ofNumber?_number] at hcommand
    cases hcommand
  | some c =>
  rw [← number_of_ofNumber? hcommand] at hnumber
  exact readAs_cases hsecret ⟨text, hsaid, hnumber⟩

/-- A message is let through exactly if the call is admitted with it. -/
theorem read_eq_ok_iff {m : Message} : a.read = .ok m ↔ a.Admits m := by
  rcases a.read_cases with ⟨m', hadmits, hread⟩ | ⟨check, error, hfails, -, hread⟩
  · rw [hread]
    constructor
    · intro h
      exact Except.ok.inj h ▸ hadmits
    · intro h
      rw [hadmits.message.unique h.message]
  · rw [hread]
    exact ⟨nofun, fun h => absurd (h.passes check) hfails.1⟩

/-- A call that no message is admitted with ends with an error of the first check that it fails. -/
theorem read_of_not_admits (h : ∀ m, ¬a.Admits m) :
    ∃ check error, a.FailsFirst check ∧ error.code = check.code ∧ a.read = .error error := by
  rcases a.read_cases with ⟨m, hadmits, -⟩ | hrefused
  · exact absurd hadmits (h m)
  · exact hrefused

end Attempt

/-! ## What the node does -/

/-- Answers a call at an endpoint as `answerCall` does, with any handler of messages in the place of the
service, over a state of any kind. -/
def answerBy {σ : Type} (handle : Message → σ → Answer × σ) (a : Attempt) (s : σ) : Reaction × σ :=
  if bodyLimit < a.body.length then (⟨.tooLarge, none⟩, s)
  else
    match a.read with
    | .error error => (⟨.ofError error, none⟩, s)
    | .ok m =>
      let (answer, s) := handle m s
      (⟨.ofReply answer.reply, answer.announcement⟩, s)

/-- The messages that a call brings before the service: those that a handler hears which does no more
than write them down. -/
def Attempt.heard (a : Attempt) : List Message :=
  (answerBy (fun m heard => (⟨.ok m, none⟩, heard ++ [m])) a []).2

section Node

variable {σ : Type} {handle : Message → σ → Answer × σ} {a : Attempt} {s : σ}

theorem answerBy_of_admits {m : Message} (hlimit : a.body.length ≤ bodyLimit) (h : a.Admits m) :
    answerBy handle a s =
      (⟨.ofReply (handle m s).1.reply, (handle m s).1.announcement⟩, (handle m s).2) := by
  rw [answerBy, if_neg (Nat.not_lt.mpr hlimit), Attempt.read_eq_ok_iff.mpr h]

theorem answerBy_of_error {error : Error} (hlimit : a.body.length ≤ bodyLimit)
    (h : a.read = .error error) : answerBy handle a s = (⟨.ofError error, none⟩, s) := by
  rw [answerBy, if_neg (Nat.not_lt.mpr hlimit), h]

/-- At an endpoint a node answers with its service for the handler. -/
theorem answer_eq_answerBy (now : Instant) {n : Node} (h : a.secret = n.secret) :
    answer now a.request n = answerBy (fun m n => n.handle now m) a n := by
  rw [answer_of_path (r := a.request) (e := a.endpoint) rfl rfl]
  unfold answerCall answerBy Attempt.read
  rw [h]
  rfl

/-- The service hears a message exactly if the call is admitted with it. -/
theorem heard_eq_iff {m : Message} (hlimit : a.body.length ≤ bodyLimit) :
    a.heard = [m] ↔ a.Admits m := by
  unfold Attempt.heard
  constructor
  · intro h
    rcases a.read_cases with ⟨m', hadmits, -⟩ | ⟨check, error, -, -, hread⟩
    · rw [answerBy_of_admits hlimit hadmits] at h
      exact List.singleton_inj.mp h ▸ hadmits
    · rw [answerBy_of_error hlimit hread] at h
      cases h
  · intro h
    rw [answerBy_of_admits hlimit h]
    rfl

/-- A call reaches the service exactly if it is well-formed and authenticated. The service then hears
its message and the node is left as the service leaves it. Otherwise the service hears nothing, the
node is left as it was, and the response carries the code of the first check that fails. Without the
secret the response is one and the same, whatever the command, the body and the node. -/
theorem answer_admits (now : Instant) (n : Node) (endpoint : Endpoint) (headers : List Header)
    (body : Bytes) (hlimit : body.length ≤ bodyLimit) :
    let a : Attempt := ⟨n.secret, endpoint, headers, body⟩
    answer now a.request n = answerBy (fun m n => n.handle now m) a n ∧
    (∀ m, a.heard = [m] ↔ a.Admits m) ∧
    (∀ m, a.Admits m → answer now a.request n =
      (⟨.ofReply (n.handle now m).1.reply, (n.handle now m).1.announcement⟩, (n.handle now m).2)) ∧
    ((∀ m, ¬a.Admits m) → a.heard = [] ∧ ∃ check response, a.FailsFirst check ∧
      answer now a.request n = (⟨response, none⟩, n) ∧
      response.errorCode? = some check.code ∧ response.status = statusOf check.code) ∧
    (¬a.KnowsSecret → ∀ (now' : Instant) (n' : Node) (endpoint' : Endpoint) (headers' : List Header)
      (body' : Bytes), body'.length ≤ bodyLimit →
      let a' : Attempt := ⟨n'.secret, endpoint', headers', body'⟩
      ¬a'.KnowsSecret →
        (answer now' a'.request n').1.response = (answer now a.request n).1.response) := by
  intro a
  have hanswer : answer now a.request n = answerBy (fun m n => n.handle now m) a n :=
    answer_eq_answerBy now rfl
  refine ⟨hanswer, fun m => heard_eq_iff hlimit, ?_, ?_, ?_⟩
  · intro m hadmits
    rw [hanswer, answerBy_of_admits hlimit hadmits]
  · intro hnone
    obtain ⟨check, error, hfails, hcode, hread⟩ := Attempt.read_of_not_admits hnone
    refine ⟨?_, check, .ofError error, hfails, ?_, ?_, ?_⟩
    · rw [Attempt.heard, answerBy_of_error hlimit hread]
    · rw [hanswer, answerBy_of_error hlimit hread]
    · rw [errorCode?_ofError, hcode]
    · rw [← hcode]
      rfl
  · intro hstranger now' n' endpoint' headers' body' hlimit' a' hstranger'
    have hanswer' : answer now' a'.request n' = answerBy (fun m n => n.handle now' m) a' n' :=
      answer_eq_answerBy now' rfl
    rw [hanswer, answerBy_of_error hlimit (Attempt.read_of_stranger hstranger), hanswer',
      answerBy_of_error hlimit' (Attempt.read_of_stranger hstranger')]

/-- A caller without the secret is turned away; one that gives it is told what the node is. -/
theorem answer_admits_sample :
    let knock : Attempt := ⟨sampleFollower.secret, .remote, [], []⟩
    let call : Attempt := ⟨sampleFollower.secret, .remote,
      (Request.ofMessage sampleFollower.secret .statusRequest).headers,
      (Request.ofMessage sampleFollower.secret .statusRequest).body⟩
    (¬knock.KnowsSecret ∧ knock.heard = [] ∧ (answer 7 knock.request sampleFollower).2 = sampleFollower) ∧
      call.Admits .statusRequest ∧ call.heard = [.statusRequest] ∧
      (answer 7 call.request sampleFollower).1.response.body = sampleFollower.describe.toBody := by
  intro knock call
  have hknock := answer_admits 7 sampleFollower .remote [] [] (by decide)
  have hcall := answer_admits 7 sampleFollower .remote call.headers call.body (by decide +kernel)
  have hstranger : ¬knock.KnowsSecret := by
    rw [Attempt.knowsSecret_iff]
    decide
  obtain ⟨hheard, _, _, -, hanswer, -, -⟩ := hknock.2.2.2.1 fun m h => hstranger h.secret
  have hsecret : Carried sampleFollower.secret := ⟨by decide, by decide, by decide⟩
  have hfits : Message.statusRequest.Fits := fits_of_length_toBody (by decide +kernel)
  have hread : call.read = .ok .statusRequest := readCall_ofMessage hsecret hfits
  have hadmits := Attempt.read_eq_ok_iff.mp hread
  refine ⟨⟨hstranger, hheard, congrArg Prod.snd hanswer⟩, hadmits, (hcall.2.1 _).mpr hadmits, ?_⟩
  exact congrArg (·.1.response.body) (hcall.2.2.1 _ hadmits)

end Node

end LogShipping.Http
