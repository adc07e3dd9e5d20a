import LogShipping.Config
import LogShipping.Proofs.Http.Admission
import Mathlib.Data.List.TakeWhile
import Mathlib.Tactic.SplitIfs

/-!
# Which secrets authenticate

A configuration may name any secret but the empty one. The client sends the octets of the secret, the
service reads them back as text, and what lies between drops blanks and tabs at the ends. So a request
authenticates exactly if its secret is one that a header carries as it is (`knowsSecret_iff_carried`).
With any other secret a node refuses the calls of a client that has the very same configuration, or the
client has no way to make them (`send_of_not_carried`).

Three things can go wrong with a secret, and they are kept apart. Control characters may not be sent
(`send_of_unsendable`); characters beyond the ASCII range are sent, but are not read back as text; and
blanks at the ends do not arrive. The last two look to both sides like a caller that does not know the
secret.

The rules for a configuration ask for none of this (`secret_ne_empty_of_validate`), so a cluster may be
set up in good faith whose nodes never talk to each other.
-/

namespace LogShipping.Http

/-! ## What a header carries -/

section Padding

variable {value : Bytes}

theorem length_unpadded_le : (unpadded value).length ≤ (value.dropWhile isPadding).length := by
  rw [unpadded, List.length_reverse]
  exact (List.dropWhile_sublist _).length_le.trans (Nat.le_of_eq List.length_reverse)

/-- A value that arrives as it is has no padding in front. -/
theorem dropWhile_of_unpadded (h : unpadded value = value) : value.dropWhile isPadding = value := by
  have hlength := @length_unpadded_le value
  rw [h] at hlength
  exact (List.dropWhile_sublist _).eq_of_length_le hlength

theorem head_of_unpadded (h : unpadded value = value) : ∀ b ∈ value.head?, isPadding b = false := by
  intro b hb
  have hfront := dropWhile_of_unpadded h
  cases value with
  | nil => cases hb
  | cons first rest =>
    obtain rfl : first = b := Option.some.inj hb
    have hkept := List.dropWhile_eq_self_iff.mp hfront (Nat.succ_pos _)
    exact Bool.eq_false_iff.mpr hkept

/-- A value that arrives as it is has no padding behind either. -/
theorem last_of_unpadded (h : unpadded value = value) : ∀ b ∈ value.getLast?, isPadding b = false := by
  have hback : unpadded value.reverse = value.reverse := by
    have hdropped := h
    rw [unpadded, dropWhile_of_unpadded h] at hdropped
    have hreversed := List.reverse_eq_iff.mp hdropped
    rw [unpadded, hreversed, List.reverse_reverse, dropWhile_of_unpadded h]
  intro b hb
  exact head_of_unpadded hback b (by rwa [List.head?_reverse])

end Padding

/-! ## Octets and characters -/

theorem toNat_ofNat_of_isReadable {b : UInt8} (h : isReadable b = true) :
    (Char.ofNat b.toNat).toNat = b.toNat := by
  have hvalid : Nat.isValidChar b.toNat := Or.inl (Nat.lt_trans (toNat_lt_of_isReadable h) (by decide))
  rw [Char.ofNat, dif_pos hvalid]
  rfl

theorem isVisible_of_isReadable {b : UInt8} (h : isReadable b = true) :
    isVisible (Char.ofNat b.toNat) = true := by
  rw [isVisible, toNat_ofNat_of_isReadable h]
  simp only [isReadable, Bool.or_eq_true, Bool.and_eq_true, decide_eq_true_eq, beq_iff_eq,
    UInt8.le_iff_toNat_le, UInt8.lt_iff_toNat_lt, ← UInt8.toNat_inj] at h ⊢
  exact h

theorem isGap_ofNat {b : UInt8} (h : isReadable b = true) :
    isGap (Char.ofNat b.toNat) = isPadding b := by
  rw [Bool.eq_iff_iff, isGap, toNat_ofNat_of_isReadable h]
  simp only [isPadding, Bool.or_eq_true, beq_iff_eq, ← UInt8.toNat_inj]
  rfl

/-- A text is carried exactly if its octets can be read as text and arrive as they are. -/
theorem carried_iff {s : String} :
    Carried s ↔ (∀ b ∈ Bytes.ofString s, isReadable b = true) ∧
      unpadded (Bytes.ofString s) = Bytes.ofString s := by
  refine ⟨fun h => ⟨fun b hb => h.isReadable_of_mem hb, h.unpadded_ofString⟩, ?_⟩
  rintro ⟨hreadable, harrives⟩
  have htext : s.toList = (Bytes.ofString s).map fun b => Char.ofNat b.toNat := by
    have hread := readable?_eq_some_iff.mpr ⟨hreadable, rfl⟩
    rw [readable?, if_pos (List.all_eq_true.mpr hreadable)] at hread
    rw [← String.toList_ofList (l := (Bytes.ofString s).map _), Option.some.inj hread]
  have hends {b : UInt8} (hb : b ∈ Bytes.ofString s) (hpadding : isPadding b = false) :
      (!isGap (Char.ofNat b.toNat)) = true := by
    rw [isGap_ofNat (hreadable b hb), hpadding]
    rfl
  constructor
  case visible =>
    rw [htext, List.all_map, List.all_eq_true]
    exact fun b hb => isVisible_of_isReadable (hreadable b hb)
  case first =>
    rw [htext, List.head?_map, Option.all_map, Option.all_eq_true]
    exact fun b hb => hends (List.mem_of_mem_head? hb) (head_of_unpadded harrives b hb)
  case last =>
    rw [htext, List.getLast?_map, Option.all_map, Option.all_eq_true]
    exact fun b hb => hends (List.mem_of_getLast? hb) (last_of_unpadded harrives b hb)

/-! ## The check of the secret -/

section Check

variable {secret : String} {m : Message}

/-- The call as which a message arrives that a client with the same secret has sent. -/
def Attempt.ofMessage (secret : String) (m : Message) : Attempt where
  secret := secret
  endpoint := m.command.endpoint
  headers := (Request.ofMessage secret m).arrived.headers
  body := (Request.ofMessage secret m).arrived.body

theorem header?_secret_ofMessage :
    header? (Attempt.ofMessage secret m).headers secretHeader = some (unpadded (Bytes.ofString secret)) := by
  simp only [Attempt.ofMessage, Request.arrived, Request.ofMessage, List.map_cons, List.map_nil]
  rw [header?_cons_of_ne (by decide +kernel), header?_cons_self toLower_secretHeader]

/-- Client and service that share a secret agree on it exactly if a header carries it. -/
theorem knowsSecret_iff_carried : (Attempt.ofMessage secret m).KnowsSecret ↔ Carried secret := by
  unfold Attempt.KnowsSecret Says
  rw [header?_secret_ofMessage, carried_iff]
  constructor
  · rintro (⟨value, hvalue, hreadable, hsame⟩ | ⟨hempty, -⟩)
    · obtain rfl := Option.some.inj hvalue
      rw [show (Attempt.ofMessage secret m).secret = secret from rfl] at hsame
      exact ⟨hsame ▸ hreadable, hsame⟩
    · obtain rfl : secret = "" := hempty
      exact carried_iff.mp ⟨by decide, by decide, by decide⟩
  · rintro ⟨hreadable, harrives⟩
    exact Or.inl ⟨_, rfl, harrives.symm ▸ hreadable, harrives⟩

/-- Of all checks only that of the secret ends with its error. -/
theorem Attempt.read_ne_unauthorized {a : Attempt} (h : a.KnowsSecret) :
    a.read ≠ .error .unauthorized := by
  intro hread
  rcases a.read_cases with ⟨m, -, hok⟩ | ⟨check, error, hfails, hcode, herror⟩
  · rw [hok] at hread
    cases hread
  · obtain rfl : error = .unauthorized := Except.error.inj (herror.symm.trans hread)
    cases check with
    | secret => exact hfails.1 h
    | header | number | command | endpoint | text | message | agreement => cases hcode

end Check

/-! ## Calls of a client -/

section Client

variable {secret peer : String} {m : Message} {n : Node}

/-- The header of the secret is the only one that may not be sent. -/
theorem any_unsendable :
    (Request.ofMessage secret m).headers.any (fun h => !h.2.all isSendable) =
      !(Bytes.ofString secret).all isSendable := by
  simp only [Request.ofMessage, List.any_cons, List.any_nil,
    (carried_commandNumber m.command).all_isSendable, Bool.not_true, Bool.false_or, Bool.or_false]

/-- The client does not make a call with a secret that no header may hold. -/
theorem send_of_unsendable (h : (Bytes.ofString secret).all isSendable = false) (now : Instant) :
    (send (exchangeWith now) secret peer m).run n =
      (.error (.transport peer "the secret cannot be sent in a header"), n) := by
  simp only [send, any_unsendable, h, Bool.not_false, if_true]
  rfl

/-- A call that can be sent comes to what the response of the node says, or finds the connection closed
where the node breaks down. -/
theorem send_of_sendable (h : (Bytes.ofString secret).all isSendable = true) (now : Instant) :
    (send (exchangeWith now) secret peer m).run n =
      (if (answer now (Request.ofMessage secret m).arrived n).1.response = .closed then
          .error (.transport peer "connection closed")
        else (answer now (Request.ofMessage secret m).arrived n).1.response.outcome,
        (answer now (Request.ofMessage secret m).arrived n).2) := by
  have hexchange : (exchangeWith now (target peer m.command) (Request.ofMessage secret m)).run n =
      (if (answer now (Request.ofMessage secret m).arrived n).1.response = .closed then
          .error "connection closed"
        else .ok (answer now (Request.ofMessage secret m).arrived n).1.response,
        (answer now (Request.ofMessage secret m).arrived n).2) := rfl
  simp only [send, any_unsendable, h, Bool.not_true, Bool.false_eq_true, if_false, StateT.run_bind,
    hexchange]
  by_cases hclosed : (answer now (Request.ofMessage secret m).arrived n).1.response = .closed
  · simp only [if_pos hclosed]
    rfl
  · simp only [if_neg hclosed]
    rfl

/-- A node turns a client away whose secret, the same as its own, no header carries. -/
theorem answer_of_not_carried (hsecret : n.secret = secret) (h : ¬ Carried secret)
    (hlimit : (Bytes.ofString m.toBody).length ≤ bodyLimit) (now : Instant) :
    answer now (Request.ofMessage secret m).arrived n = (⟨.ofError .unauthorized, none⟩, n) := by
  have hanswer := answer_eq_answerBy (a := .ofMessage secret m) now hsecret.symm
  have hread := Attempt.read_of_stranger (mt (knowsSecret_iff_carried (m := m)).mp h)
  exact hanswer.trans (answerBy_of_error hlimit hread)

/-- A call with such a secret fails, at the client if no header may hold the secret and at the node
otherwise. The node is left as it was. -/
theorem send_of_not_carried (hsecret : n.secret = secret) (h : ¬ Carried secret)
    (hlimit : (Bytes.ofString m.toBody).length ≤ bodyLimit) (now : Instant) :
    (send (exchangeWith now) secret peer m).run n =
      (.error (if (Bytes.ofString secret).all isSendable then .remote .unauthorized "Credential mismatch"
        else .transport peer "the secret cannot be sent in a header"), n) := by
  by_cases hsendable : (Bytes.ofString secret).all isSendable = true
  · have hrefused := answer_of_not_carried hsecret h hlimit now
    have houtcome := @outcome_ofReply (.error .unauthorized) nofun nofun
    have hanswered : Response.ofError .unauthorized ≠ .closed :=
      fun h => absurd ((@ofReply_eq_closed_iff (.error .unauthorized)).mp h) nofun
    rw [send_of_sendable hsendable, hrefused, if_neg hanswered, if_pos hsendable]
    exact Prod.ext houtcome rfl
  · rw [if_neg hsendable]
    exact send_of_unsendable (Bool.eq_false_iff.mpr hsendable) now

end Client

/-! ## Configurations -/

/-- What the rules ask of a secret. -/
theorem secret_ne_empty_of_validate {c : Config} (h : c.validate = .ok ()) :
    c.cluster.sharedSecret ≠ "" := by
  have hnone := Config.validate_eq_ok_iff.mp h
  unfold Config.fault? at hnone
  split_ifs at hnone with _ _ hsecret
  exact fun hempty => hsecret (String.isEmpty_iff.mpr hempty)

/-- An accepted configuration has a secret. A client with the configuration knows the secret of a node
with the same configuration exactly if a header carries it. Then the call is made, and no check of the
node calls it unauthorized; with any other secret the call fails on either side of the connection. -/
theorem accepted_authenticates_iff (c : Config) (hvalid : c.validate = .ok ()) (n : Node)
    (hnode : n.secret = c.setup.secret) (now : Instant) (peer : String) (m : Message) :
    let secret := c.cluster.sharedSecret
    let request := (Request.ofMessage secret m).arrived
    let attempt : Attempt := ⟨n.secret, m.command.endpoint, request.headers, request.body⟩
    secret ≠ "" ∧ (attempt.KnowsSecret ↔ Carried secret) ∧
    (Carried secret → attempt.read ≠ .error .unauthorized ∧
      (send (exchangeWith now) secret peer m).run n =
        (if (answer now request n).1.response = .closed then
            .error (.transport peer "connection closed")
          else (answer now request n).1.response.outcome, (answer now request n).2)) ∧
    (¬ Carried secret → (Bytes.ofString m.toBody).length ≤ bodyLimit →
      (send (exchangeWith now) secret peer m).run n =
        (.error (if (Bytes.ofString secret).all isSendable then
            .remote .unauthorized "Credential mismatch"
          else .transport peer "the secret cannot be sent in a header"), n)) := by
  intro secret request attempt
  have hsecret : n.secret = secret := hnode
  have hattempt : attempt = .ofMessage secret m := congrArg (Attempt.mk · _ _ _) hsecret
  refine ⟨secret_ne_empty_of_validate hvalid, hattempt ▸ knowsSecret_iff_carried, fun h => ⟨?_, ?_⟩,
    fun h hlimit => send_of_not_carried hsecret h hlimit now⟩
  · rw [hattempt]
    exact Attempt.read_ne_unauthorized (knowsSecret_iff_carried.mpr h)
  · exact send_of_sendable h.all_isSendable now

/-- The configuration of a follower, but for the secret. -/
def followerConfig (secret : String) : Config where
  node := { url := "http://b", bindAddress := "127.0.0.1:7001" }
  cluster := { masterAddress := some "http://a", sharedSecret := secret }

/-- A secret with blanks between its characters authenticates. -/
theorem accepted_authenticates_blank :
    Carried sampleFollower.secret ∧
      (Attempt.ofMessage sampleFollower.secret .statusRequest).KnowsSecret := by
  have hcarried : Carried sampleFollower.secret := ⟨by decide, by decide, by decide⟩
  exact ⟨hcarried, (accepted_authenticates_iff (followerConfig sampleFollower.secret) (by decide)
    sampleFollower rfl 7 "http://b" .statusRequest).2.1.mpr hcarried⟩

/-- A secret beyond the ASCII range is accepted and sent, but not read back. -/
theorem accepted_authenticates_umlaut :
    let c := followerConfig "schlüssel"
    let n := { sampleFollower with secret := c.setup.secret }
    c.validate = .ok () ∧ ¬ (Attempt.ofMessage c.cluster.sharedSecret .statusRequest).KnowsSecret ∧
      (send (exchangeWith 7) c.cluster.sharedSecret "http://b" .statusRequest).run n =
        (.error (.remote .unauthorized "Credential mismatch"), n) := by
  intro c n
  have hnot : ¬ Carried c.cluster.sharedSecret := fun h => absurd h.visible (by decide)
  refine ⟨by decide, mt knowsSecret_iff_carried.mp hnot, ?_⟩
  have hsend := @send_of_not_carried _ "http://b" .statusRequest n rfl hnot (by decide +kernel) 7
  rw [if_pos (by decide)] at hsend
  exact hsend

end LogShipping.Http
