import LogShipping.Cluster
import LogShipping.Http.Delivery
import LogShipping.Proofs.Message.Body

/-!
# Calls over HTTP

A call over HTTP is a direct call. The client and the service agree on where a message goes, on the
headers, on the body and on how an error travels, so that what a node says to a message reaches the
caller unchanged (`Http.send_delivers`).

This needs a secret that a header carries as it is (`Http.Carried`), a request that is not too long for
the service, and a reply whose octets can be counted. Each of the three is a boundary of the program and
not of the proof: another secret does not authenticate (`Proofs.Http.Secrets`), a longer request is
turned away before any of its checks, and a longer reply fits into no memory.

The chain is client, header, checks, handler, codec, status, client, and there is one lemma for each
link: the request loses nothing (`arrived_ofMessage`), no check refuses it (`readCall_ofMessage`), the
service handles the message in it (`answer_ofMessage`), and what the response says is the reply
(`outcome_ofReply`). Delivery itself is faithful. That a call may be lost on its way is said with the
calls of `World`, not here.
-/

namespace LogShipping.Http

/-! ## Texts in headers -/

/-- Whether a character is a blank or a tab. -/
def isGap (c : Char) : Bool := c.toNat == 32 || c.toNat == 9

/-- Whether a character is a visible one of the ASCII range, a blank or a tab. -/
def isVisible (c : Char) : Bool := (32 ≤ c.toNat && c.toNat < 127) || c.toNat == 9

/-- A text that a header carries to the other end as it is: visible characters of the ASCII range,
perhaps with blanks and tabs between them, but not at the ends. -/
structure Carried (s : String) : Prop where
  visible : s.toList.all isVisible = true
  first : (s.toList.head?.all fun c => !isGap c) = true
  last : (s.toList.getLast?.all fun c => !isGap c) = true

/-- The octet of a character. -/
def octet (c : Char) : UInt8 := UInt8.ofNat c.toNat

theorem toNat_octet {c : Char} (h : c.toNat < 128) : (octet c).toNat = c.toNat := by
  rw [octet, UInt8.toNat_ofNat']
  omega

theorem isSendable_of_isReadable {b : UInt8} (h : isReadable b = true) : isSendable b = true := by
  simp only [isReadable, isSendable, Bool.or_eq_true, Bool.and_eq_true, decide_eq_true_eq,
    beq_iff_eq] at h ⊢
  refine h.imp_left ?_
  rintro ⟨hlow, hhigh⟩
  exact ⟨hlow, UInt8.ne_of_lt hhigh⟩

/-- Nothing is dropped from a front that is no padding. -/
theorem dropWhile_isPadding {value : Bytes} (h : ∀ b ∈ value.head?, isPadding b = false) :
    value.dropWhile isPadding = value := by
  cases value with
  | nil => rfl
  | cons b rest => exact List.dropWhile_cons_of_neg (by simp [h b rfl])

namespace Carried

variable {s : String}

theorem visible_of_mem (h : Carried s) {c : Char} (hc : c ∈ s.toList) :
    (32 ≤ c.toNat ∧ c.toNat < 127) ∨ c.toNat = 9 := by
  have hvisible := List.all_eq_true.mp h.visible c hc
  simpa only [isVisible, Bool.or_eq_true, Bool.and_eq_true, decide_eq_true_eq, beq_iff_eq] using hvisible

theorem toNat_lt (h : Carried s) {c : Char} (hc : c ∈ s.toList) : c.toNat < 128 := by
  rcases h.visible_of_mem hc with ⟨-, hlt⟩ | heq <;> omega

/-- The text is that of its octets, one for each character. -/
theorem asText_octets (h : Carried s) : Bytes.asText (s.toList.map octet) = s := by
  have hback : ∀ c ∈ s.toList, ((fun b : UInt8 => Char.ofNat b.toNat) ∘ octet) c = c := by
    intro c hc
    rw [Function.comp_apply, toNat_octet (h.toNat_lt hc), Char.ofNat_toNat]
  rw [Bytes.asText, List.map_map, List.map_congr_left hback, List.map_id', String.ofList_toList]

theorem ofString_eq (h : Carried s) : Bytes.ofString s = s.toList.map octet := by
  have hascii : ∀ b ∈ s.toList.map octet, b.toNat < 128 := by
    intro b hb
    obtain ⟨c, hc, rfl⟩ := List.mem_map.mp hb
    rw [toNat_octet (h.toNat_lt hc)]
    exact h.toNat_lt hc
  have hoctets := Bytes.ofString_asText hascii
  rwa [h.asText_octets] at hoctets

theorem isReadable_of_mem (h : Carried s) {b : UInt8} (hb : b ∈ Bytes.ofString s) :
    isReadable b = true := by
  rw [h.ofString_eq] at hb
  obtain ⟨c, hc, rfl⟩ := List.mem_map.mp hb
  have hoctet := toNat_octet (h.toNat_lt hc)
  simp only [isReadable, Bool.or_eq_true, Bool.and_eq_true, decide_eq_true_eq, beq_iff_eq,
    UInt8.le_iff_toNat_le, UInt8.lt_iff_toNat_lt, ← UInt8.toNat_inj, hoctet]
  exact h.visible_of_mem hc

/-- A header can be sent with the text as its value. -/
theorem all_isSendable (h : Carried s) : (Bytes.ofString s).all isSendable = true :=
  List.all_eq_true.mpr fun _ hb => isSendable_of_isReadable (h.isReadable_of_mem hb)

/-- The value is read as the text. -/
theorem readable?_ofString (h : Carried s) : readable? (Bytes.ofString s) = some s := by
  have hall : (Bytes.ofString s).all isReadable = true :=
    List.all_eq_true.mpr fun _ hb => h.isReadable_of_mem hb
  rw [readable?, if_pos hall, h.ofString_eq]
  exact congrArg some h.asText_octets

theorem isPadding_octet {c : Char} (hlt : c.toNat < 128) (h : (!isGap c) = true) :
    isPadding (octet c) = false := by
  have hoctet := toNat_octet hlt
  simp only [isGap, Bool.not_eq_true', Bool.or_eq_false_iff, beq_eq_false_iff_ne] at h
  simp only [isPadding, Bool.or_eq_false_iff, beq_eq_false_iff_ne, ne_eq, ← UInt8.toNat_inj, hoctet]
  exact h

/-- The value has no padding to lose. -/
theorem unpadded_ofString (h : Carried s) : unpadded (Bytes.ofString s) = Bytes.ofString s := by
  have hfirst : ∀ b ∈ (s.toList.map octet).head?, isPadding b = false := by
    intro b hb
    rw [List.head?_map] at hb
    obtain ⟨c, hc, rfl⟩ := Option.map_eq_some_iff.mp hb
    exact isPadding_octet (h.toNat_lt (List.mem_of_mem_head? hc)) ((Option.all_eq_true _ _).mp h.first c hc)
  have hlast : ∀ b ∈ (s.toList.map octet).reverse.head?, isPadding b = false := by
    intro b hb
    rw [List.head?_reverse, List.getLast?_map] at hb
    obtain ⟨c, hc, rfl⟩ := Option.map_eq_some_iff.mp hb
    exact isPadding_octet (h.toNat_lt (List.mem_of_getLast? hc)) ((Option.all_eq_true _ _).mp h.last c hc)
  rw [h.ofString_eq, unpadded, dropWhile_isPadding hfirst, dropWhile_isPadding hlast,
    List.reverse_reverse]

end Carried

theorem carried_commandNumber (c : Command) : Carried (toString c.number) := by
  cases c <;> exact ⟨by decide, by decide, by decide⟩

theorem carried_errorNumber (c : ErrorCode) : Carried (toString c.number) := by
  cases c <;> exact ⟨by decide, by decide, by decide⟩

/-! ## Headers -/

theorem header?_cons_self {name : String} (h : name.toLower = name) (value : Bytes)
    (rest : List Header) : header? ((name, value) :: rest) name = some value := by
  simp [header?, h]

theorem header?_cons_of_ne {name other : String} (h : other.toLower ≠ name) (value : Bytes)
    (rest : List Header) : header? ((other, value) :: rest) name = header? rest name := by
  simp [header?, h]

theorem toLower_commandHeader : commandHeader.toLower = commandHeader := by decide +kernel

theorem toLower_secretHeader : secretHeader.toLower = secretHeader := by decide +kernel

theorem toLower_errorCodeHeader : errorCodeHeader.toLower = errorCodeHeader := by decide +kernel

/-! ## The secret -/

theorem foldl_or_eq_zero {octets : Bytes} {start : UInt8} :
    octets.foldl (· ||| ·) start = 0 ↔ start = 0 ∧ ∀ b ∈ octets, b = 0 := by
  induction octets generalizing start with
  | nil => simp
  | cons b rest ih => simp [ih, UInt8.or_eq_zero_iff, and_assoc]

theorem zipWith_xor_eq_zero {given expected : Bytes} (h : given.length = expected.length) :
    (∀ b ∈ List.zipWith (· ^^^ ·) given expected, b = 0) ↔ given = expected := by
  induction given generalizing expected with
  | nil => simp [List.eq_nil_of_length_eq_zero h.symm]
  | cons a given ih =>
    cases expected with
    | nil => simp at h
    | cons b expected =>
      simp only [List.zipWith_cons_cons, List.forall_mem_cons, UInt8.xor_eq_zero_iff,
        ih (Nat.succ.inj h), List.cons.injEq]

/-- Looking at every octet decides equality. -/
theorem secretsMatch_iff {given expected : Bytes} :
    secretsMatch given expected = true ↔ given = expected := by
  simp only [secretsMatch, Bool.and_eq_true, beq_iff_eq, foldl_or_eq_zero, true_and]
  constructor
  · rintro ⟨hlength, hzero⟩
    exact (zipWith_xor_eq_zero hlength).mp hzero
  · rintro rfl
    exact ⟨rfl, (zipWith_xor_eq_zero rfl).mpr rfl⟩

/-! ## The service's side -/

section Service

variable {secret : String} {m : Message}

/-- The request that carries a message loses nothing on its way. -/
theorem arrived_ofMessage (hsecret : Carried secret) :
    (Request.ofMessage secret m).arrived = Request.ofMessage secret m := by
  simp only [Request.arrived, Request.ofMessage, List.map_cons, List.map_nil,
    (carried_commandNumber m.command).unpadded_ofString, hsecret.unpadded_ofString]

theorem headerText?_command :
    headerText? (Request.ofMessage secret m).headers commandHeader =
      some (toString m.command.number) := by
  rw [headerText?, Request.ofMessage, header?_cons_self toLower_commandHeader, Option.bind_some,
    (carried_commandNumber m.command).readable?_ofString]

theorem headerText?_secret (hsecret : Carried secret) :
    headerText? (Request.ofMessage secret m).headers secretHeader = some secret := by
  rw [headerText?, Request.ofMessage, header?_cons_of_ne (by decide +kernel),
    header?_cons_self toLower_secretHeader, Option.bind_some, hsecret.readable?_ofString]

theorem word32?_commandNumber (c : Command) :
    Text.word32? (toString c.number) = some c.number := by
  cases c <;> rfl

theorem fits_of_length_toBody (h : (Bytes.ofString m.toBody).length ≤ bodyLimit) : m.Fits := by
  have hoctets : (Message.codec.write m).length ≤ (Bytes.ofString m.toBody).length := by
    rw [show m.toBody = Base64.text (Message.codec.write m) from rfl, Base64.ofString_text]
    exact Base64.length_le_encode _
  have hlimit : bodyLimit < Bytes.values 8 := by decide
  exact Nat.lt_of_le_of_lt (Nat.le_trans hoctets h) hlimit

/-- None of the checks of a call refuses a request that was made of a message. -/
theorem readCall_ofMessage (hsecret : Carried secret) (hfits : m.Fits) :
    readCall secret m.command.endpoint (Request.ofMessage secret m).headers
      (Request.ofMessage secret m).body = .ok m := by
  have hbody : bodyText (Request.ofMessage secret m).body = .ok m.toBody := by
    rw [bodyText, Request.ofMessage, Utf8.decode_eq_ok_iff.mpr rfl]
    rfl
  have hmessage : (Message.ofBody m.toBody).mapError (fun fault => Error.protocol (.body fault)) = .ok m :=
    Message.received_toBody hfits m.trim_toBody
  have hmatch : secretsMatch (Bytes.ofString secret) (Bytes.ofString secret) = true :=
    secretsMatch_iff.mpr rfl
  simp only [readCall, headerText?_secret hsecret, headerText?_command, Option.getD_some,
    hmatch, word32?_commandNumber, Command.ofNumber?_number, Endpoint.accepts_endpoint, hbody,
    hmessage, bind, Except.bind, pure, Except.pure, if_true]

theorem route_of_path {r : Request} {e : Endpoint} (h : r.path = e.path) : r.route = e.path := by
  rw [Request.route, h]
  cases e <;> decide +kernel

/-- Which endpoint a path is of. -/
theorem ite_path (e : Endpoint) :
    (if e.path = Endpoint.master.path then Endpoint.master else .remote) = e := by
  cases e with
  | master => exact if_pos rfl
  | remote => exact if_neg (by decide)

/-- What the service does about a request at an endpoint. -/
theorem answer_of_path {r : Request} {e : Endpoint} (h : r.path = e.path) (hpost : r.method = "POST")
    (now : Instant) (n : Node) : answer now r n = answerCall now e r n := by
  have hendpoint : e.path = Endpoint.master.path ∨ e.path = Endpoint.remote.path := by
    cases e with
    | master => exact Or.inl rfl
    | remote => exact Or.inr rfl
  rw [answer, route_of_path h, if_pos hendpoint, if_pos hpost, ite_path]

/-- The service handles the message that a request was made of, and its response tells of the reply. -/
theorem answer_ofMessage (now : Instant) {n : Node} (hsecret : Carried n.secret)
    (hlimit : (Bytes.ofString m.toBody).length ≤ bodyLimit) :
    answer now (Request.ofMessage n.secret m) n =
      (⟨.ofReply (n.handle now m).1.reply, (n.handle now m).1.announcement⟩,
        (n.handle now m).2) := by
  have hshort : ¬ bodyLimit < (Request.ofMessage n.secret m).body.length := Nat.not_lt.mpr hlimit
  rw [answer_of_path rfl rfl, answerCall, if_neg hshort,
    readCall_ofMessage hsecret (fits_of_length_toBody hlimit)]

end Service

/-! ## The caller's side -/

theorem message_ne_empty (e : Error) : e.message ≠ "" := by
  unfold Error.message
  split <;> simp [toString, String.append_eq_empty_iff]

theorem word32?_errorNumber (c : ErrorCode) : Text.word32? (toString c.number) = some c.number := by
  cases c <;> rfl

/-- A response that tells of an error names its code. -/
theorem errorCode?_ofError (e : Error) : (Response.ofError e).errorCode? = some e.code := by
  rw [Response.errorCode?, Response.ofError, headerText?, header?_cons_self toLower_errorCodeHeader,
    Option.bind_some, (carried_errorNumber e.code).readable?_ofString, Option.bind_some,
    word32?_errorNumber, Option.map_some, ErrorCode.ofNumber_number]

theorem ofReply_error {e : Error} (h : e ≠ .overflow) :
    Response.ofReply (.error e) = Response.ofError e := by
  cases e with
  | overflow => exact absurd rfl h
  | _ => rfl

/-- Only a breakdown closes the connection. -/
theorem ofReply_eq_closed_iff {reply : Except Error Message} :
    Response.ofReply reply = .closed ↔ reply = .error .overflow := by
  cases reply with
  | ok m => exact ⟨fun h => absurd (show (200 : Nat) = 0 from congrArg Response.status h) (by decide), nofun⟩
  | error e =>
    by_cases he : e = .overflow
    · rw [he]
      exact ⟨fun _ => rfl, fun _ => rfl⟩
    · rw [ofReply_error he]
      -- a response that tells of an error has a header
      exact ⟨fun h => absurd (congrArg Response.headers h) (List.cons_ne_nil _ _),
        fun h => absurd (Except.error.inj h) he⟩

/-- What a response says is the reply that it was made of; an error comes as one of the peer. -/
theorem outcome_ofReply {reply : Except Error Message} (h : ∀ m, reply = .ok m → m.Fits)
    (hintact : reply ≠ .error .overflow) : (Response.ofReply reply).outcome =
      reply.mapError fun e => .remote e.code e.message := by
  cases reply with
  | ok m => exact Message.received_toBody (h m rfl) m.trim_toBody
  | error e =>
    have hbody : (Response.ofError e).body.isEmpty = false := by
      rw [← Bool.not_eq_true, String.isEmpty_iff]
      exact message_ne_empty e
    rw [ofReply_error fun he => hintact (congrArg _ he), Response.outcome, errorCode?_ofError,
      Option.isSome_some, Bool.or_true, if_pos rfl, Option.getD_some,
      if_neg (by rw [hbody]; exact Bool.false_ne_true)]
    rfl

/-! ## The whole way -/

/-- A call over HTTP is a direct call. The request passes all checks of the service; the node is left as
the service leaves it and has the same to announce; and the caller gets the reply, or an error of the
peer with the code and the wording of the service's error. Where the service breaks down there is no
reply, and the caller finds the connection closed. -/
theorem send_delivers (now : Instant) (peer : String) (m : Message) (n : Node)
    (hsecret : Carried n.secret) (hlimit : (Bytes.ofString m.toBody).length ≤ bodyLimit)
    (hreply : ∀ reply, (n.handle now m).1.reply = .ok reply → reply.Fits) :
    let request := (Request.ofMessage n.secret m).arrived
    readCall n.secret m.command.endpoint request.headers request.body = .ok m ∧
    answer now request n =
      (⟨.ofReply (n.handle now m).1.reply, (n.handle now m).1.announcement⟩,
        (n.handle now m).2) ∧
    (send (exchangeWith now) n.secret peer m).run n =
      ((n.handle now m).1.reply.mapError fun e =>
        if e = .overflow then .transport peer "connection closed" else .remote e.code e.message,
        (n.handle now m).2) := by
  intro request
  have harrived : request = Request.ofMessage n.secret m := arrived_ofMessage hsecret
  have hanswer := answer_ofMessage now hsecret hlimit
  have hsend : (Request.ofMessage n.secret m).headers.any (fun h => !h.2.all isSendable) = false := by
    simp only [Request.ofMessage, List.any_cons, List.any_nil, hsecret.all_isSendable,
      (carried_commandNumber m.command).all_isSendable]
    rfl
  refine ⟨?_, harrived ▸ hanswer, ?_⟩
  · rw [harrived]
    exact readCall_ofMessage hsecret (fits_of_length_toBody hlimit)
  · have hexchange :
        (exchangeWith now (target peer m.command) (Request.ofMessage n.secret m)).run n =
          (if Response.ofReply (n.handle now m).1.reply = .closed then .error "connection closed"
            else .ok (Response.ofReply (n.handle now m).1.reply), (n.handle now m).2) := by
      simp only [exchangeWith, StateT.run, arrived_ofMessage hsecret, hanswer]
    simp only [send, hsend, Bool.false_eq_true, if_false, StateT.run_bind, hexchange,
      ofReply_eq_closed_iff]
    by_cases hintact : (n.handle now m).1.reply = .error .overflow
    · rw [if_pos hintact, hintact]
      rfl
    · rw [if_neg hintact]
      refine Prod.ext ((outcome_ofReply hreply hintact).trans ?_) rfl
      cases hr : (n.handle now m).1.reply with
      | ok reply => rfl
      | error e =>
        have he : e ≠ .overflow := fun he => hintact (by rw [hr, he])
        simp only [Except.mapError, if_neg he]

/-- A follower with an empty log. -/
def sampleFollower : Node where
  log := { standing := Standing.start "http://b" false (some "http://a"), counters := {}
           store := { engine := .tree } }
  hosts := HostTable.new "http://b" 0 0
  buffer := PushBuffer.new 4
  queue := PushQueue.new 4
  phase := .tailing
  settings := ⟨100, 2, 4, 50, 100, 1000⟩
  secret := "wolf \"42\""

/-- A follower tells over HTTP what it is, and refuses over HTTP to take another follower in. -/
theorem send_delivers_refused :
    Carried sampleFollower.secret ∧
      (send (exchangeWith 7) sampleFollower.secret "http://b/" .statusRequest).run sampleFollower =
        (.ok (.status "http://b" 0 false "http://a"), sampleFollower) ∧
      (send (exchangeWith 7) sampleFollower.secret "http://b/" (.registerRequest "http://c" 3)).run
          sampleFollower =
        (.error (.remote .notMaster "Not master: current master is \"http://a\""), sampleFollower) := by
  have hsecret : Carried sampleFollower.secret := ⟨by decide, by decide, by decide⟩
  refine ⟨hsecret, ?_, ?_⟩
  · refine (send_delivers 7 "http://b/" .statusRequest sampleFollower hsecret (by decide +kernel) ?_).2.2
    rintro reply hreply
    cases hreply
    unfold Message.Fits
    decide +kernel
  · have hwording : Error.message (.notMaster "http://a") =
        "Not master: current master is \"http://a\"" := by decide +kernel
    have hrefused := (send_delivers 7 "http://b/" (.registerRequest "http://c" 3) sampleFollower hsecret
      (by decide +kernel) (by rintro reply hreply; cases hreply)).2.2
    rw [hrefused, ← hwording]
    rfl

end LogShipping.Http
