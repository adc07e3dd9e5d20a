import LogShipping.Proofs.Activity.Pulling
import LogShipping.Proofs.Log.Intact
import Mathlib.Algebra.Order.Floor.Div

/-!
# Catching up

Whatever it is told, a follower that catches up never asks twice at the same position, and it says that
it has caught up only where the last page says so too and the position has come to the peer's. With a
peer that hands out an intact log (`Node.Offers`), and with a store that takes batches, it pulls as many
pages as the entries that it misses fill, one at least, and then it holds the log of the peer
(`catchUp_pulls_fewest`).

The first half needs no assumption on the peer: each pull that does not end the catch-up moves the
position up, so there are no more pulls than positions (`Asker.CatchesUp.length_le`), and every catch-up
under way can be carried on to its end (`exists_end_catchUp_of_any`). The second half counts pages: a
full page leaves the pages behind it (`pageCount_of_lt`), and a page that is served is taken in as a
whole (`Call.Served.taken`).

The peer's entries have to be such as a commit lets through. An application does not look at keys, and
an entry may erase the records of others; then a catch-up succeeds without holding the log
(`log_erased_by_catchUp`). A peer that commits while it is pulled from is not treated as one that works:
there is always one more page to be had, and only the first half applies.
-/

namespace LogShipping

open Work

/-! ## Peers -/

/-- The log is intact and holds these entries. -/
def Holdings.Intact (l : Holdings) (entries : List Entry) : Prop := l.rows.Intact l.position entries

/-- A node hands out these entries: its log is intact, and its store answers scans. -/
structure Node.Offers (n : Node) (entries : List Entry) : Prop where
  intact : n.holdings.Intact entries
  answers : n.log.store.Answers .scan

/-- If the call has been answered, then by a node that hands out these entries. -/
def Call.Served (entries : List Entry) (k : Call) : Prop :=
  ∀ reply, k.reply = some reply → ∃ (server : Node) (now : Instant),
    server.Offers entries ∧ reply = (server.handle now k.message).1.reply

/-- The store of the node takes batches, and its calls are served by nodes that hand out these entries. -/
structure Node.Working (n : Node) (entries : List Entry) (deeds : List Deed) : Prop
    extends n.Writes deeds where
  served : ∀ k ∈ calls deeds, k.Served entries

/-- How many pages of some size hold so many entries; one at least. -/
def pageCount (entries size : Nat) : Nat := max 1 (entries ⌈/⌉ size)

theorem pageCount_of_le {entries size : Nat} (hsize : 0 < size) (h : entries ≤ size) :
    pageCount entries size = 1 := by
  rw [pageCount, max_eq_left]
  rwa [ceilDiv_le_iff_le_mul hsize, Nat.mul_one]

/-- A full page leaves the pages behind it. -/
theorem pageCount_of_lt {entries size : Nat} (hsize : 0 < size) (h : size < entries) :
    pageCount entries size = pageCount (entries - size) size + 1 := by
  have hstep : entries ⌈/⌉ size = (entries - size) ⌈/⌉ size + 1 := by
    rw [Nat.ceilDiv_eq_add_pred_div, Nat.ceilDiv_eq_add_pred_div, ← Nat.add_div_right _ hsize]
    congr 1
    omega
  have hone : 1 ≤ (entries - size) ⌈/⌉ size := by
    rw [Nat.ceilDiv_eq_add_pred_div]
    exact Nat.div_pos (by omega) hsize
  rw [pageCount, pageCount, hstep, max_eq_right hone]
  omega

section Served

variable {entries : List Entry}

/-- What a node that hands out these entries says to one that is not ahead. -/
theorem Node.Offers.exists_page {server : Node} (h : server.Offers entries)
    (hroom : entries.length + 1 < 2 ^ 64) (now : Instant) (url : String) {lastSeen : LogId}
    (hseen : lastSeen.toNat ≤ entries.length) (limit : UInt32) :
    ∃ chunk, pageOf? (server.handle now (.readLogRequest url lastSeen limit)).1.reply = some chunk ∧
      chunk.currid.toNat = entries.length ∧
      chunk.entries = (entries.drop lastSeen.toNat).take (Log.pageSize limit).toNat ∧
      (chunk.isCurrent = true ↔ entries.length ≤ lastSeen.toNat + (Log.pageSize limit).toNat) := by
  have hreached : server.position.toNat = entries.length := h.intact.reached
  have hnext : server.position + 1 ≠ 0 := by
    rw [ne_eq, ← UInt64.toNat_inj, UInt64.toNat_add, UInt64.toNat_one, hreached, Nat.mod_eq_of_lt hroom]
    exact Nat.succ_ne_zero _
  have hle : lastSeen ≤ server.position := by
    rw [UInt64.le_iff_toNat_le, hreached]
    exact hseen
  obtain ⟨chunk, hread, hcurrid, hentries, hcurrent⟩ :=
    Log.ensures_readLog_next h.intact h.answers hnext now hle limit
  refine ⟨chunk, ?_, by rw [hcurrid]; exact hreached, hentries, hcurrent⟩
  show pageOf? (server.handleReadLog now url lastSeen limit).1.reply = some chunk
  have hresult : (server.onLog (Log.onStore (Log.readLog server.position now lastSeen limit))).1 =
      .ok chunk := hread
  unfold Node.handleReadLog
  split
  · next error m hrun =>
    rw [hrun] at hresult
    cases hresult
  · next other m hrun =>
    rw [hrun] at hresult
    cases hresult
    rfl

/-! ## Pulls from such a peer -/

variable {a : Asker} {written : Prop} {l l' : Holdings} {made : List Call}

/-- What a log holds behind another one: the entries between two positions have been taken in. -/
structure Holdings.Gains (l : Holdings) (entries : List Entry) (count : Nat) (l' : Holdings) : Prop where
  position : l'.position.toNat = l.position.toNat + count
  rows : l'.rows = l.rows.applyAll (((entries.drop l.position.toNat).take count).flatMap Entry.ops)

theorem Holdings.Gains.trans {m : Holdings} {count more : Nat} (h : l.Gains entries count m)
    (h' : m.Gains entries more l') : l.Gains entries (count + more) l' where
  position := by rw [h'.position, h.position, Nat.add_assoc]
  rows := by
    rw [h'.rows, h.rows, ← Rows.applyAll_append, ← List.flatMap_append, h.position,
      ← List.drop_drop, List.take_add]

/-- The call for a page behind the position is answered with the entries behind it. -/
theorem Call.Served.exists_page {reply : Except Error Message}
    (h : (a.asking l (some reply)).Served entries) (hroom : entries.length + 1 < 2 ^ 64)
    (hle : l.position.toNat ≤ entries.length) :
    ∃ chunk, pageOf? reply = some chunk ∧ chunk.currid.toNat = entries.length ∧
      chunk.entries = (entries.drop l.position.toNat).take (Log.pageSize a.limit).toNat ∧
      (chunk.isCurrent = true ↔
        entries.length ≤ l.position.toNat + (Log.pageSize a.limit).toNat) ∧
      ∀ (i : Nat) (hi : i < chunk.entries.length),
        chunk.entries[i].id.toNat = l.position.toNat + i + 1 := by
  obtain ⟨server, now, hoffers, hreply⟩ := h reply rfl
  obtain ⟨chunk, hpage, hcurrid, hentries, hcurrent⟩ :=
    hoffers.exists_page hroom now a.url hle a.limit
  refine ⟨chunk, (congrArg pageOf? hreply).trans hpage, hcurrid, hentries, hcurrent, fun i hi => ?_⟩
  simp only [hentries, List.getElem_take, List.getElem_drop]
  exact hoffers.intact.numbered _ _

/-- A page of the entries behind the position is taken in as a whole. -/
theorem Holdings.Takes.gains {page new : List Entry} {size : Nat} (h : l.Takes page new [] l')
    (hpage : page = (entries.drop l.position.toNat).take size)
    (hnumbered : ∀ (i : Nat) (hi : i < page.length), page[i].id.toNat = l.position.toNat + i + 1) :
    l.Gains entries (min size (entries.length - l.position.toNat)) l' := by
  have hnew : new = (entries.drop l.position.toNat).take size := by
    rw [← hpage, h.picks.eq_append hnumbered, List.append_nil]
  refine ⟨?_, ?_⟩
  · rw [h.position, hnew, List.length_take, List.length_drop]
  · rw [h.rows, hnew, ← List.length_drop, ← List.take_eq_take_min]

/-- A page that is served and taken in as a whole ends the catch-up exactly if it reaches to the end of the
log. -/
theorem Call.Served.taken {reply : Except Error Message} {chunk : Chunk} {new : List Entry}
    (h : (a.asking l (some reply)).Served entries) (hpage : pageOf? reply = some chunk)
    (htakes : l.Takes chunk.entries new [] l') (hroom : entries.length + 1 < 2 ^ 64)
    (hle : l.position.toNat ≤ entries.length) :
    let size := (Log.pageSize a.limit).toNat
    l.Gains entries (min size (entries.length - l.position.toNat)) l' ∧
      (chunk.isCurrent = true ∧ chunk.currid ≤ l'.position ↔
        entries.length ≤ l.position.toNat + size) := by
  intro size
  obtain ⟨other, hother, hcurrid, hentries, hcurrent, hnumbered⟩ := h.exists_page hroom hle
  obtain rfl := Option.some.inj (hpage.symm.trans hother)
  have hgains := htakes.gains hentries hnumbered
  have hposition := hgains.position
  refine ⟨hgains, ?_⟩
  rw [hcurrent, UInt64.le_iff_toNat_le, hcurrid]
  omega

/-- Of a page that is served nothing is left behind a gap. -/
theorem Call.Served.no_gap {reply : Except Error Message} {chunk : Chunk} {new rest : List Entry}
    {e : Entry} (h : (a.asking l (some reply)).Served entries) (hpage : pageOf? reply = some chunk)
    (htakes : l.Takes chunk.entries new (e :: rest) l') (hroom : entries.length + 1 < 2 ^ 64)
    (hle : l.position.toNat ≤ entries.length) : e.id.toNat = l'.position.toNat + 1 := by
  obtain ⟨other, hother, -, -, -, hnumbered⟩ := h.exists_page hroom hle
  obtain rfl := Option.some.inj (hpage.symm.trans hother)
  have hall := htakes.picks.eq_append hnumbered
  have hnext := hnumbered new.length (by rw [hall]; simp)
  simp only [hall, List.getElem_append_right (Nat.le_refl new.length), Nat.sub_self,
    List.getElem_cons_zero] at hnext
  rw [hnext, htakes.position]

/-- A pull that is served has not come to anything yet, or it has brought a page of entries; it is the
last one exactly if the page reaches to the end of the log. -/
theorem Asker.Pulls.served {r : Option (Except Error (Unit ⊕ Unit))} (h : a.Pulls written l made r l')
    (hwritten : written) (hserved : ∀ k ∈ made, k.Served entries) (hroom : entries.length + 1 < 2 ^ 64)
    (hle : l.position.toNat ≤ entries.length) :
    let size := (Log.pageSize a.limit).toNat
    (r = none ∧ made.length ≤ 1) ∨
      (r = some (.ok (.inr ())) ∧ entries.length ≤ l.position.toNat + size ∧
        l.Gains entries (entries.length - l.position.toNat) l') ∨
      (r = some (.ok (.inl ())) ∧ l.position.toNat + size < entries.length ∧ l.Gains entries size l') := by
  intro size
  have hsize : 0 < size := Log.pageSize_pos a.limit
  cases h with
  | waits => exact .inl ⟨rfl, Nat.zero_le _⟩
  | underWay reply _ => exact .inl ⟨rfl, Nat.le_refl _⟩
  | refused hpage error =>
    obtain ⟨chunk, hchunk, -⟩ := (hserved _ List.mem_cons_self).exists_page hroom hle
    rw [hpage] at hchunk
    cases hchunk
  | failed hpage htakes hgap error =>
    have hnext := (hserved _ List.mem_cons_self).no_gap hpage htakes hroom hle
    have hbeyond := hgap hwritten
    omega
  | current hpage htakes hcurrent hreached =>
    obtain ⟨hgains, hends⟩ := (hserved _ List.mem_cons_self).taken hpage htakes hroom hle
    have hreach := hends.mp ⟨hcurrent, hreached⟩
    rw [min_eq_right (by omega)] at hgains
    exact .inr (.inl ⟨rfl, hreach, hgains⟩)
  | stuck hpage htakes hnot hsame =>
    obtain ⟨hgains, hends⟩ := (hserved _ List.mem_cons_self).taken hpage htakes hroom hle
    have hposition := hgains.position
    rw [hsame] at hposition
    exact (hnot (hends.mpr (by omega))).elim
  | raised hpage htakes hnot _ =>
    obtain ⟨hgains, hends⟩ := (hserved _ List.mem_cons_self).taken hpage htakes hroom hle
    have hshort : l.position.toNat + size < entries.length := by
      rw [← Nat.not_le]
      exact fun hreach => hnot (hends.mpr hreach)
    rw [min_eq_left (by omega)] at hgains
    exact .inr (.inr ⟨rfl, hshort, hgains⟩)

/-- Pulls in a row that are served end with the peer's position, and there are as many of them as there
are pages to be had. -/
theorem Asker.CatchesUp.served {r : Option (Except Error Unit)} (h : a.CatchesUp written l made r l')
    (hwritten : written) (hserved : ∀ k ∈ made, k.Served entries) (hroom : entries.length + 1 < 2 ^ 64)
    (hle : l.position.toNat ≤ entries.length) :
    let pulls := pageCount (entries.length - l.position.toNat) (Log.pageSize a.limit).toNat
    made.length ≤ pulls ∧ ∀ result, r = some result → result = .ok () ∧ made.length = pulls ∧
      l.Gains entries (entries.length - l.position.toNat) l' := by
  have hsize := Log.pageSize_pos a.limit
  induction h with
  | within h =>
    obtain ⟨-, hone⟩ | ⟨⟨⟩, -⟩ | ⟨⟨⟩, -⟩ := h.served hwritten hserved hroom hle
    exact ⟨hone.trans (le_max_left _ _), fun result hresult => by cases hresult⟩
  | fails h =>
    obtain ⟨⟨⟩, -⟩ | ⟨⟨⟩, -⟩ | ⟨⟨⟩, -⟩ := h.served hwritten hserved hroom hle
  | ends h =>
    obtain ⟨⟨⟩, -⟩ | ⟨-, hreach, hgains⟩ | ⟨⟨⟩, -⟩ := h.served hwritten hserved hroom hle
    intro pulls
    have hpulls : pulls = 1 := pageCount_of_le hsize (by omega)
    rw [hpulls, h.length_eq]
    exact ⟨Nat.le_refl 1, fun result hresult => by cases hresult; exact ⟨rfl, rfl, hgains⟩⟩
  | @next l m l' first later r h hlater ih =>
    obtain ⟨⟨⟩, -⟩ | ⟨⟨⟩, -⟩ | ⟨-, hshort, hgains⟩ :=
      h.served hwritten (fun k hk => hserved k (List.mem_append_left _ hk)) hroom hle
    intro pulls
    have hposition := hgains.position
    have hrest : entries.length - m.position.toNat =
        entries.length - l.position.toNat - (Log.pageSize a.limit).toNat := by omega
    have hpulls : pulls = pageCount (entries.length - m.position.toNat)
        (Log.pageSize a.limit).toNat + 1 := by
      rw [hrest]
      exact pageCount_of_lt hsize (by omega)
    obtain ⟨hfew, hend⟩ := ih (fun k hk => hserved k (List.mem_append_right _ hk)) (by omega)
    rw [List.length_append, h.length_eq, hpulls, Nat.add_comm 1]
    refine ⟨Nat.succ_le_succ hfew, fun result hresult => ?_⟩
    obtain ⟨hok, hcount, hmore⟩ := hend result hresult
    refine ⟨hok, by rw [hcount], ?_⟩
    have hall := hgains.trans hmore
    rwa [show (Log.pageSize a.limit).toNat + (entries.length - m.position.toNat) =
      entries.length - l.position.toNat by omega] at hall

/-- A log that had the first entries and gained the others holds all of them, if each of them is such as a
commit lets through. -/
theorem Holdings.Gains.intact {had : List Entry} (h : l.Gains entries (entries.length - had.length) l')
    (hhad : l.Intact had) (hbegins : had <+: entries)
    (hnumbered : ∀ (i : Nat) (hi : i < entries.length), entries[i].id.toNat = i + 1)
    (hfits : ∀ e ∈ entries, e.Fits) (hdata : ∀ e ∈ entries, e.reserved? = none) :
    l'.Intact entries := by
  obtain ⟨new, rfl⟩ := hbegins
  have hposition : l.position.toNat = had.length := hhad.reached
  have hrows := h.rows
  have hreached := h.position
  simp only [hposition, List.drop_left, List.length_append, Nat.add_sub_cancel_left,
    List.take_length] at hrows hreached
  rw [Holdings.Intact, hrows]
  refine Rows.Intact.append hhad (fun e he => hdata e (List.mem_append_right _ he))
    (fun e he => hfits e (List.mem_append_right _ he)) (fun i hi => ?_) (by rw [hreached, hposition])
  have hid := hnumbered (had.length + i) (by rw [List.length_append]; omega)
  rw [List.getElem_append_right (Nat.le_add_right _ _)] at hid
  simp only [Nat.add_sub_cancel_left] at hid
  rw [hid, hposition]

end Served

/-- Each pull that does not end the catch-up takes it to a higher position. -/
theorem Asker.CatchesUp.length_le {a : Asker} {written : Prop} {l l' : Holdings} {made : List Call}
    {r : Option (Except Error Unit)} (h : a.CatchesUp written l made r l') :
    made.length ≤ 2 ^ 64 - l.position.toNat := by
  have hone : ∀ {l l' : Holdings} {made : List Call} {r : Option (Except Error (Unit ⊕ Unit))},
      a.Pulls written l made r l' → made.length ≤ 1 := by
    intro l l' made r h
    cases h <;> simp
  induction h with
  | @within l _ _ h | @fails l _ _ _ h | @ends l _ _ h =>
    have := hone h
    have := l.position.toNat_lt
    omega
  | @next l m _ _ later _ h _ ih =>
    have hraised : l.position < m.position := by
      cases h
      assumption
    rw [UInt64.lt_iff_toNat_lt] at hraised
    have := m.position.toNat_lt
    rw [List.length_append, h.length_eq]
    omega

/-! ## To the end -/

namespace Node.Working

variable {n server : Node} {entries : List Entry} {deeds first second : List Deed}

theorem of_append (h : n.Working entries (first ++ second)) : n.Working entries first where
  toWrites := h.toWrites.of_append
  served k hk := h.served k (by simp [hk])

/-- A node works on with a deed of its own, if the peer answers it. -/
theorem answered (h : n.Working entries deeds) (hpeer : server.Offers entries) {deed : Deed}
    (hdeed : deed.AnsweredBy fun _ m => (server.handle 0 m).1.reply) :
    n.Working entries (deeds ++ [deed]) where
  first := h.first
  later := by
    intro before after hmem
    rcases List.mem_append.mp hmem with hmem | hmem
    · exact h.later before after hmem
    · rw [← List.mem_singleton.mp hmem] at hdeed
      exact hdeed.elim
  served := by
    intro k hk
    rw [calls_append] at hk
    rcases List.mem_append.mp hk with hk | hk
    · exact h.served k hk
    · cases deed with
      | call peer m reply =>
        rw [calls_call, List.mem_singleton] at hk
        subst hk
        exact fun given hgiven => ⟨server, 0, hpeer, Option.some.inj (hgiven.symm.trans hdeed)⟩
      | callAll peers m replies =>
        obtain rfl : replies = _ := hdeed
        obtain ⟨i, hi, rfl⟩ : ∃ i, ∃ hi : i < peers.length, _ = k := by
          simpa [calls, Deed.calls, List.mem_mapIdx] using hk
        intro given hgiven
        refine ⟨server, 0, hpeer, ?_⟩
        simpa [hi] using hgiven.symm
      | _ => cases hk

end Node.Working

namespace Lifecycle

section Catching

variable {n n' server : Node} {peer : String} {deeds : List Deed} {had entries : List Entry}
  {r : Option (Except Error Unit)}

/-- A catch-up that is served makes as many calls as there are pages to be had, and it succeeds. -/
theorem served_catchUp (hfollower : n.standing.isMaster = false) (hbegins : had <+: entries)
    (hhad : n.holdings.Intact had) (hroom : entries.length + 1 < 2 ^ 64)
    (hrun : (catchUp peer).run.Runs n deeds r n') (hworking : n.Working entries deeds) :
    let pulls := pageCount (entries.length - had.length) (Log.pageSize n.settings.readLogLimit).toNat
    (calls deeds).length ≤ pulls ∧ ∀ result, r = some result → result = .ok () ∧
      (calls deeds).length = pulls ∧ n.holdings.Gains entries (entries.length - had.length) n'.holdings := by
  have hposition : n.holdings.position.toNat = had.length := hhad.reached
  have hserved := (catchesUp_of_runs hfollower hrun).served hworking.toWrites hworking.served hroom
    (by rw [hposition]; exact hbegins.length_le)
  rwa [hposition] at hserved

/-- A catch-up that has been served so far can be carried on to its end. -/
theorem exists_end_catchUp (hfollower : n.standing.isMaster = false) (hbegins : had <+: entries)
    (hhad : n.holdings.Intact had) (hroom : entries.length + 1 < 2 ^ 64) (hpeer : server.Offers entries)
    (hrun : (catchUp peer).run.Runs n deeds none n') (hworking : n.Working entries deeds) :
    ∃ further m, CarriedOn (fun _ m => (server.handle 0 m).1.reply) deeds further ∧
      (catchUp peer).run.Runs n further (some (.ok ())) m ∧ n.Working entries further := by
  obtain ⟨further, value, m, hcarried, hend, hmore⟩ :=
    hrun.exists_end (W := n.Working entries) (fun _ _ h hdeed => h.answered hpeer hdeed)
      (fun deeds r n' hrun hworking => (ownDeeds_catchUp_le hfollower hrun).trans
        (Nat.mul_le_mul_left 7 (Nat.succ_le_succ
          (served_catchUp hfollower hbegins hhad hroom hrun hworking).1)))
      (fun _ _ h => h.of_append) hworking
  obtain ⟨rfl, -⟩ := (served_catchUp hfollower hbegins hhad hroom hend hmore).2 value rfl
  exact ⟨further, m, hcarried, hend, hmore⟩

/-- Whatever it is told from now on, a catch-up comes to an end. -/
theorem exists_end_catchUp_of_any (hfollower : n.standing.isMaster = false)
    (hrun : (catchUp peer).run.Runs n deeds none n')
    (answer : String → Message → Except Error Message) :
    ∃ further value m, CarriedOn answer deeds further ∧
      (catchUp peer).run.Runs n further (some value) m := by
  obtain ⟨further, value, m, hcarried, hend, -⟩ :=
    hrun.exists_end (W := fun _ => True) (fun _ deed _ (_ : deed.AnsweredBy answer) => trivial)
      (fun deeds r n' hrun _ => (ownDeeds_catchUp_le hfollower hrun).trans
        (Nat.mul_le_mul_left 7 (Nat.succ_le_succ (catchesUp_of_runs hfollower hrun).length_le)))
      (fun _ _ _ => trivial) trivial
  exact ⟨further, value, m, hcarried, hend⟩

end Catching

/-- What is asked of a catch-up with a peer that hands out the entries: it makes so many calls at most,
it succeeds with exactly that many, and as long as it is under way it can be carried on to its end, once
the calls that it waits for and makes are answered by the peer. -/
structure Reaches (n server : Node) (peer : String) (entries : List Entry) (pulls : Nat)
    (deeds : List Deed) (r : Option (Except Error Unit)) (n' : Node) : Prop where
  atMost : (calls deeds).length ≤ pulls
  succeeds : ∀ result, r = some result → result = .ok () ∧ (calls deeds).length = pulls
  position : r ≠ none → n'.position.toNat = entries.length
  log : r ≠ none → (∀ e ∈ entries, e.reserved? = none) → n'.holdings.Intact entries
  goesOn : r = none → ∃ further m, CarriedOn (fun _ m => (server.handle 0 m).1.reply) deeds further ∧
    (catchUp peer).run.Runs n further (some (.ok ())) m ∧ n.Working entries further

/-- **A catch-up climbs, and with a working peer it takes the fewest pulls.** Whatever a follower is told,
its pulls begin at ever higher positions, only a page that is current and reached ends them well, and a
page that leaves the position where it was ends them with an error; so it comes to an end. With a peer
that hands out a log which begins with the follower's own, and a store that takes batches, it succeeds
with as many pulls as the entries in between fill pages, one at least, and then it holds the peer's log. -/
theorem catchUp_pulls_fewest (peer : String) {n : Node} (hfollower : n.standing.isMaster = false) :
    (∀ deeds r n', (catchUp peer).run.Runs n deeds r n' →
      (n.asker peer).CatchesUp (n.Writes deeds) n.holdings (calls deeds) r n'.holdings ∧
      (calls deeds).length ≤ 2 ^ 64 - n.position.toNat ∧
      ownDeeds deeds ≤ 7 * ((calls deeds).length + 1) ∧
      (r = none → ∀ answer, ∃ further value m, CarriedOn answer deeds further ∧
        (catchUp peer).run.Runs n further (some value) m)) ∧
    ∀ (server : Node) (had entries : List Entry), server.Offers entries → n.holdings.Intact had →
      had <+: entries → entries.length + 1 < 2 ^ 64 →
      let size := max 1 (min n.settings.readLogLimit.toNat 10000)
      ∀ deeds r n', (catchUp peer).run.Runs n deeds r n' → n.Working entries deeds →
        Reaches n server peer entries (max 1 ((entries.length - had.length) ⌈/⌉ size)) deeds r n' := by
  constructor
  · intro deeds r n' hrun
    have hcatchesUp := catchesUp_of_runs hfollower hrun
    refine ⟨hcatchesUp, hcatchesUp.length_le, ownDeeds_catchUp_le hfollower hrun, ?_⟩
    rintro rfl answer
    exact exists_end_catchUp_of_any hfollower hrun answer
  · intro server had entries hpeer hhad hbegins hroom size deeds r n' hrun hworking
    obtain ⟨hatMost, hends⟩ := served_catchUp hfollower hbegins hhad hroom hrun hworking
    rw [Log.toNat_pageSize] at hatMost hends
    have hgains : r ≠ none →
        n.holdings.Gains entries (entries.length - had.length) n'.holdings := by
      intro hr
      obtain ⟨result, hresult⟩ := Option.ne_none_iff_exists'.mp hr
      exact (hends result hresult).2.2
    refine ⟨hatMost, fun result hresult => ?_, fun hr => ?_, fun hr hdata => ?_, ?_⟩
    · obtain ⟨hok, hcount, -⟩ := hends result hresult
      exact ⟨hok, hcount⟩
    · have hposition := (hgains hr).position
      have hbefore : n.holdings.position.toNat = had.length := hhad.reached
      have hle := hbegins.length_le
      show n'.holdings.position.toNat = entries.length
      omega
    · refine (hgains hr).intact hhad hbegins hpeer.intact.numbered (fun e he => ?_) hdata
      obtain ⟨record, -, hrecord⟩ := hpeer.intact.records e he
      exact Stored.fits_of_decode hrecord
    · rintro rfl
      exact exists_end_catchUp hfollower hbegins hhad hroom hpeer hrun hworking

/-- Nothing has happened yet. -/
theorem runs_catchUp_nil (peer : String) (n : Node) : (catchUp peer).run.Runs n [] none n :=
  .underWay (fun _ h => by cases h) n

theorem working_nil {n : Node} (h : n.log.store.outage = none) (entries : List Entry) :
    n.Working entries [] where
  first := Store.answers_of_no_outage h _
  later _ _ hmem := absurd hmem List.not_mem_nil
  served _ hmem := absurd hmem List.not_mem_nil

/-- A node over some rows, which stands at a position and asks for pages of one size. -/
def keeper (standing : Standing) (position : LogId) (rows : Rows) (limit : UInt32) : Node where
  log := { standing := standing, counters := { position := position }
           store := { engine := .table, rows := rows } }
  hosts := HostTable.new standing.self position 0
  buffer := PushBuffer.new 4
  queue := PushQueue.new 4
  phase := .catchup
  settings := ⟨limit, 1, 2, 50, 100, 1000⟩
  secret := "wolf"

/-- The first entries that some other node committed. -/
def firstEntries (count : Nat) : List Entry :=
  (List.range count).map fun i => Log.foreign (UInt64.ofNat (i + 1))

/-- A node that has taken them in. -/
def copy (standing : Standing) (count : Nat) (limit : UInt32) : Node :=
  keeper standing (UInt64.ofNat count) (Rows.applyAll ∅ ((firstEntries count).flatMap Entry.ops)) limit

theorem intact_copy (standing : Standing) (limit : UInt32) {count : Nat} (hcount : count < 2 ^ 64) :
    (copy standing count limit).holdings.Intact (firstEntries count) := by
  have hlength : (firstEntries count).length = count := by simp [firstEntries]
  have hproper : ∀ e ∈ firstEntries count, e.Proper := by
    intro e he
    obtain ⟨i, -, rfl⟩ := List.mem_map.mp he
    exact Log.foreign_proper _
  refine Rows.Intact.append Rows.Intact.empty
    (fun e he => Entry.reserved?_eq_none_iff.mpr (hproper e he).data) (fun e he => (hproper e he).fits) ?_ ?_
  · intro i hi
    rw [hlength] at hi
    have hid : (firstEntries count)[i].id = UInt64.ofNat (i + 1) := by simp [firstEntries, Log.foreign]
    rw [hid, UInt64.toNat_ofNat', Nat.mod_eq_of_lt (by omega), UInt64.toNat_zero, Nat.zero_add]
  · show (UInt64.ofNat count).toNat = _
    rw [hlength, UInt64.toNat_ofNat', Nat.mod_eq_of_lt hcount, UInt64.toNat_zero, Nat.zero_add]

/-- A follower that has one of three entries pulls the others one by one. -/
theorem catchUp_pulls_fewest_two :
    let n := copy Log.led 1 1
    let entries := firstEntries 3
    n.standing.isMaster = false ∧ (copy Log.alone 3 100).Offers entries ∧
      n.holdings.Intact (firstEntries 1) ∧ firstEntries 1 <+: entries ∧ entries.length + 1 < 2 ^ 64 ∧
      ∃ deeds n', (catchUp "http://a").run.Runs n deeds (some (.ok ())) n' ∧ n.Working entries deeds ∧
        (calls deeds).length = 2 ∧ n'.holdings.Intact entries := by
  intro n entries
  have hpeer : (copy Log.alone 3 100).Offers entries :=
    ⟨intact_copy Log.alone 100 (by decide), Store.answers_of_no_outage rfl _⟩
  have hhad : n.holdings.Intact (firstEntries 1) := intact_copy Log.led 1 (by decide)
  have hbegins : firstEntries 1 <+: entries := ⟨[Log.foreign 2, Log.foreign 3], rfl⟩
  have hroom : entries.length + 1 < 2 ^ 64 := by decide
  obtain ⟨-, hreaches⟩ := catchUp_pulls_fewest "http://a" (n := n) rfl
  obtain ⟨further, n', -, hrun, hworking⟩ :=
    (hreaches _ _ _ hpeer hhad hbegins hroom _ _ _ (runs_catchUp_nil "http://a" n)
      (working_nil rfl entries)).goesOn rfl
  have hends := hreaches _ _ _ hpeer hhad hbegins hroom _ _ _ hrun hworking
  exact ⟨rfl, hpeer, hhad, hbegins, hroom, _, n', hrun, hworking,
    (hends.succeeds _ rfl).2.trans (by decide), hends.log (by simp) (by decide)⟩

/-- An entry that no commit lets through: it removes the record of the entry before. -/
def eraser : Entry := { Log.foreign 2 with items := [.delete (Key.log 1)] }

/-- The records of the two entries. -/
def erasable : Rows :=
  Rows.applyAll ∅ [.put (Key.log 2) (Stored.encode eraser),
    .put (Key.log 1) (Stored.encode (Log.foreign 1))]

theorem intact_erasable : erasable.Intact 2 [Log.foreign 1, eraser] where
  reached := rfl
  upTo := by
    intro key hkey _
    have hkeys : ∀ key ∈ erasable.keys, key = Key.log 1 ∨ key = Key.log 2 := by decide +kernel
    rcases hkeys key (Std.ExtTreeMap.mem_keys.mpr hkey) with rfl | rfl
    · exact ⟨1, by decide, rfl⟩
    · exact ⟨2, by decide, rfl⟩
  numbered i hi := by
    match i, hi with
    | 0, _ => rfl
    | 1, _ => rfl
  records e he := by
    rcases List.mem_cons.mp he with rfl | he
    · exact ⟨Stored.encode (Log.foreign 1), by decide +kernel,
        Stored.decode_encode (Log.foreign_proper 1).fits⟩
    · rw [List.mem_singleton.mp he]
      exact ⟨Stored.encode eraser, by decide +kernel,
        Stored.decode_encode (by unfold Entry.Fits; decide +kernel)⟩

/-- The log of the peer is intact; but the second entry, when it is applied, takes the record of the first
one away, and the catch-up succeeds without it. -/
theorem log_erased_by_catchUp :
    let n := keeper Log.led 0 ∅ 100
    let entries := [Log.foreign 1, eraser]
    n.standing.isMaster = false ∧ (keeper Log.alone 2 erasable 100).Offers entries ∧
      n.holdings.Intact [] ∧
      ∃ deeds n', (catchUp "http://a").run.Runs n deeds (some (.ok ())) n' ∧ n.Working entries deeds ∧
        n'.log.store.rows[Key.log 1]? = none ∧ ¬ n'.holdings.Intact entries := by
  intro n entries
  have hpeer : (keeper Log.alone 2 erasable 100).Offers entries :=
    ⟨intact_erasable, Store.answers_of_no_outage rfl _⟩
  have hhad : n.holdings.Intact [] := Rows.Intact.empty
  have hbegins : [] <+: entries := List.nil_prefix
  have hroom : entries.length + 1 < 2 ^ 64 := by decide
  obtain ⟨further, n', -, hrun, hworking⟩ :=
    exists_end_catchUp rfl hbegins hhad hroom hpeer (runs_catchUp_nil "http://a" n)
      (working_nil rfl entries)
  have hgains := ((served_catchUp rfl hbegins hhad hroom hrun hworking).2 _ rfl).2.2
  have herased : n'.log.store.rows[Key.log 1]? = none := by
    have hrows : n'.log.store.rows = Rows.applyAll ∅ (entries.flatMap Entry.ops) := hgains.rows
    rw [hrows]
    decide +kernel
  refine ⟨rfl, hpeer, hhad, _, n', hrun, hworking, herased, fun hintact => ?_⟩
  obtain ⟨record, hrecord, -⟩ := hintact.records (Log.foreign 1) List.mem_cons_self
  rw [show n'.holdings.rows[Key.log (Log.foreign 1).id]? = none from herased] at hrecord
  cases hrecord

end Lifecycle

end LogShipping
