import LogShipping.Proofs.Log.Intact

/-!
# Reading page by page

A reader that goes on behind the last entry of each page gets every entry of an intact log once and in
order, and is told that it is current with the last page (`Log.readPages`, `Log.Delivers`).

The reader is a recursion on its requests, each with a time and a limit of its own; limits of nothing
and beyond the greatest page are among them. It stops at a page that is current or empty. By induction
on what is left of the log, each page brings a beginning of it (`Serves.exists_rest`), and as a page has
room for one entry at least, there need be no more requests than entries.

Nothing is written between the requests. A log that grows meanwhile has more pages, and a reader of
those may go on for as long as it grows. That the log has ids left behind its position is asked for, and
what happens to the page at the last id is shown apart (`last_page_breaks_down`).
-/

namespace LogShipping

open Std

namespace Log

variable {position lastSeen : LogId} {entries : List Entry} {s : Store}

/-- A reader asks for one page after the other, at the times and with the limits that it is given, each
behind the last entry of the page before, until a page is current. -/
def readPages (position : LogId) : (requests : List (Instant × UInt32)) → (lastSeen : LogId) →
    Access (List Chunk)
  | [], _ => return []
  | (now, limit) :: requests, lastSeen => do
    let chunk ← readLog position now lastSeen limit
    if chunk.isCurrent then return [chunk]
    return chunk :: (← readPages position requests (chunk.lastId?.getD lastSeen))

/-- The pages bring the entries `later` in order; with more requests than entries they bring all of
them, and the last page, and no other, is current. -/
structure Delivers (later : List Entry) (requests : Nat) (chunks : List Chunk) : Prop where
  inOrder : chunks.flatMap (·.entries) <+: later
  complete : later.length < requests → chunks.flatMap (·.entries) = later
  ends : later.length < requests → ∃ front last, chunks = front ++ [last] ∧
    last.isCurrent = true ∧ ∀ chunk ∈ front, chunk.isCurrent = false

theorem Delivers.nil (later : List Entry) : Delivers later 0 [] where
  inOrder := List.nil_prefix
  complete h := absurd h (Nat.not_lt_zero _)
  ends h := absurd h (Nat.not_lt_zero _)

/-- A current page that brings all there is ends the reading. -/
theorem Delivers.current {chunk : Chunk} (hcurrent : chunk.isCurrent = true) (requests : Nat) :
    Delivers chunk.entries requests [chunk] where
  inOrder := ⟨[], by rw [List.flatMap_singleton, List.append_nil]⟩
  complete _ := List.flatMap_singleton _ _
  ends _ := ⟨[], chunk, rfl, hcurrent, fun _ h => absurd h List.not_mem_nil⟩

/-- A page that is not current and not empty is followed by what the pages behind it deliver. -/
theorem Delivers.cons {chunk : Chunk} {later : List Entry} {requests : Nat} {chunks : List Chunk}
    (hcurrent : chunk.isCurrent = false) (hne : chunk.entries ≠ [])
    (h : Delivers later requests chunks) :
    Delivers (chunk.entries ++ later) (requests + 1) (chunk :: chunks) := by
  have hpos := List.length_pos_iff.mpr hne
  have hfewer : (chunk.entries ++ later).length < requests + 1 → later.length < requests := by
    rw [List.length_append]
    omega
  refine ⟨?_, fun hlt => ?_, fun hlt => ?_⟩
  · rw [List.flatMap_cons]
    exact (List.prefix_append_right_inj _).mpr h.inOrder
  · rw [List.flatMap_cons, h.complete (hfewer hlt)]
  · obtain ⟨front, last, rfl, hlast, hfront⟩ := h.ends (hfewer hlt)
    refine ⟨chunk :: front, last, rfl, hlast, fun other hother => ?_⟩
    rcases List.mem_cons.mp hother with rfl | hother
    · exact hcurrent
    · exact hfront other hother

/-- A page behind the position of an intact log has entries; they are a beginning of what is left of the
log, and the reader goes on behind them. -/
theorem Serves.exists_rest {rows : Rows} {now : Instant} {limit : UInt32} {chunk : Chunk}
    (hserves : Serves rows position now lastSeen (pageSize limit).toNat chunk)
    (h : rows.Intact position entries) (hbehind : lastSeen < position) :
    chunk.entries ≠ [] ∧ ∃ last ≤ position, chunk.lastId? = some last ∧
      entries.drop lastSeen.toNat = chunk.entries ++ entries.drop last.toNat := by
  have hposition := h.reached
  have hlt := UInt64.lt_iff_toNat_lt.mp hbehind
  have hseen := UInt64.le_of_lt hbehind
  have hmost := pageSize_pos limit
  have hlength := h.length_page hseen hserves.page
  have hne : chunk.entries ≠ [] := by
    rw [← List.length_pos_iff]
    omega
  obtain ⟨last, hlast, hreach⟩ := hserves.exists_lastId? hne
  refine ⟨hne, last, UInt64.le_iff_toNat_le.mpr (by omega), hlast, ?_⟩
  obtain ⟨rest, hrest⟩ := List.take_prefix (pageSize limit).toNat (entries.drop lastSeen.toNat)
  rw [← h.page_eq hseen hserves.page] at hrest
  rw [hreach, ← List.drop_drop, ← hrest, List.drop_left]

theorem ensures_readPages (h : s.rows.Intact position entries) (hscan : s.Answers .scan)
    (hroom : position + 1 ≠ 0) (requests : List (Instant × UInt32)) (hseen : lastSeen ≤ position) :
    Ensures (readPages position requests lastSeen) s fun r _ =>
      ∃ chunks, r = .ok chunks ∧
        Delivers (entries.drop lastSeen.toNat) requests.length chunks := by
  induction requests generalizing s lastSeen with
  | nil => exact Ensures.pure ⟨[], rfl, .nil _⟩
  | cons request requests ih =>
    obtain ⟨now, limit⟩ := request
    apply Ensures.bind
    rcases UInt64.lt_or_eq_of_le hseen with hbehind | rfl
    · refine (ensures_readLog_intact h hscan hroom now hbehind limit).mono ?_
      rintro r t ⟨ht, chunk, rfl, hserves, -⟩
      obtain ⟨hne, last, hle, hlast, hsplit⟩ := hserves.exists_rest h hbehind
      cases hcurrent : chunk.isCurrent with
      | true =>
        have hat : last = position := by
          have := hserves.current.mp hcurrent
          rw [hlast] at this
          exact Option.some.inj this
        rw [hat, h.reached, List.drop_length, List.append_nil] at hsplit
        simp only [hcurrent, if_true, hsplit]
        exact Ensures.pure ⟨[chunk], rfl, Delivers.current hcurrent _⟩
      | false =>
        simp only [hcurrent, Bool.false_eq_true, if_false, hlast, Option.getD_some, hsplit]
        rw [← ht.1] at h
        refine Ensures.bind ((ih h (ht.2.2 _ hscan) hle).mono ?_)
        rintro r u ⟨chunks, rfl, hdelivers⟩
        exact Ensures.pure ⟨chunk :: chunks, rfl, hdelivers.cons hcurrent hne⟩
    · have hread : Ensures (readLog lastSeen now lastSeen limit) s fun r t =>
          r = .ok (Chunk.heartbeat lastSeen now) ∧ t = s := by
        rw [Ensures, run_readLog_at]
        exact ⟨rfl, rfl⟩
      refine hread.mono ?_
      rintro r t ⟨rfl, rfl⟩
      have hnone : entries.drop lastSeen.toNat = (Chunk.heartbeat lastSeen now).entries := by
        rw [h.reached, List.drop_length]
        rfl
      rw [hnone]
      exact Ensures.pure ⟨_, rfl, Delivers.current rfl _⟩

/-- An entry whose record is there is handed out on its own as well. -/
theorem run_readOne {e : Entry} {record : Bytes} (hget : s.Answers .get)
    (hrow : s.rows[Key.log e.id]? = some record) (hrecord : Stored.decode record = .ok e) :
    ((readOne e.id).run.run s).1 = .ok (some e) := by
  refine Ensures.bind (Q := fun r _ => r = .ok (some e)) ((Store.ensures_lookup _).mono ?_)
  rintro r t ⟨-, rfl | ⟨hnot, -⟩⟩
  · simp only [hrow, hrecord]
    exact Ensures.pure rfl
  · exact absurd hget hnot

/-- **A reader gets the next page, and page by page the log.** Over a log partition with ids up to the
position, a reader ahead of the position is turned away, one at the position is told that it is current,
and one behind it gets the run of entries behind what it has seen, or a failure exactly if the record of
one of them is flawed. The page is current exactly if it reaches the position. Only a run that goes up to
the last id of all is not handed out: it breaks the work down. Over an intact log that leaves an id behind
its position, the pages of a reader bring every later entry once and in order, and the last one is
current. -/
theorem readLog_serves_run (hkeys : s.rows.LogUpTo position) (hget : s.Answers .get)
    (hscan : s.Answers .scan) :
    (∀ now lastSeen limit,
      let r := ((readLog position now lastSeen limit).run.run s).1
      let most := max 1 (min limit.toNat 10000)
      (position < lastSeen → r = .error (.consistency (.readerAhead lastSeen position))) ∧
      (lastSeen = position → r = .ok (Chunk.heartbeat position now)) ∧
      ((∃ fault, r = .error (.storage fault)) ↔
        lastSeen < position ∧ ∃ id, s.rows.InRun lastSeen most id ∧ s.rows.Flawed id) ∧
      (lastSeen < position → (∀ id, s.rows.InRun lastSeen most id → ¬ s.rows.Flawed id) →
        ((∀ id, s.rows.InRun lastSeen most id → id + 1 ≠ 0) ∧
          ∃ chunk, r = .ok chunk ∧ Serves s.rows position now lastSeen most chunk ∧
            ∀ e ∈ chunk.entries, ((readOne e.id).run.run s).1 = .ok (some e)) ∨
        ((∃ id, s.rows.InRun lastSeen most id ∧ id + 1 = 0) ∧ r = .error .overflow))) ∧
    ∀ entries, s.rows.Intact position entries → position + 1 ≠ 0 →
      ∀ lastSeen ≤ position, ∀ requests,
        ∃ chunks, ((readPages position requests lastSeen).run.run s).1 = .ok chunks ∧
          Delivers (entries.drop lastSeen.toNat) requests.length chunks := by
  refine ⟨fun now lastSeen limit => ?_, fun entries h hroom lastSeen hseen requests =>
    ensures_readPages h hscan hroom requests hseen⟩
  intro r most
  have hmost : (pageSize limit).toNat = most := toNat_pageSize limit
  have hahead : position < lastSeen → r = .error (.consistency (.readerAhead lastSeen position)) := by
    intro hlt
    show ((readLog position now lastSeen limit).run.run s).1 = _
    unfold readLog
    rw [if_pos hlt]
    rfl
  have hat : lastSeen = position → r = .ok (Chunk.heartbeat position now) := by
    rintro rfl
    exact congrArg Prod.fst (run_readLog_at lastSeen now limit s)
  have hbehind : lastSeen < position →
      (∃ chunk, r = .ok chunk ∧ Serves s.rows position now lastSeen most chunk ∧
        ∀ e ∈ chunk.entries, e.id + 1 ≠ 0) ∨
      (∃ fault id, r = .error (.storage fault) ∧ s.rows.InRun lastSeen most id ∧
        s.rows.Flawed id) ∨
      (r = .error .overflow ∧ (∃ id, s.rows.InRun lastSeen most id ∧ id + 1 = 0) ∧
        ∀ id, s.rows.InRun lastSeen most id → ¬ s.rows.Flawed id) := by
    intro hlt
    have hread := (ensures_readLog_behind hkeys hscan now hlt limit).2
    rwa [hmost] at hread
  refine ⟨hahead, hat, ⟨?_, ?_⟩, ?_⟩
  · rintro ⟨fault, hfault⟩
    rcases UInt64.lt_or_le position lastSeen with hlt | hle
    · rw [hahead hlt] at hfault
      cases hfault
    · rcases UInt64.lt_or_eq_of_le hle with hlt | heq
      · rcases hbehind hlt with ⟨chunk, hchunk, -⟩ | ⟨-, id, -, hrun, hflawed⟩ | ⟨hover, -⟩
        · rw [hchunk] at hfault
          cases hfault
        · exact ⟨hlt, id, hrun, hflawed⟩
        · rw [hover] at hfault
          cases hfault
      · rw [hat heq] at hfault
        cases hfault
  · rintro ⟨hlt, id, hrun, hflawed⟩
    rcases hbehind hlt with ⟨chunk, -, hserves, -⟩ | ⟨fault, -, hfault, -⟩ | ⟨-, -, hnone⟩
    · exact absurd hflawed (hserves.page.not_flawed hrun)
    · exact ⟨fault, hfault⟩
    · exact absurd hflawed (hnone id hrun)
  · intro hlt hnone
    rcases hbehind hlt with ⟨chunk, hchunk, hserves, hnext⟩ | ⟨-, id, -, hrun, hflawed⟩ |
      ⟨hover, hlast, -⟩
    · refine Or.inl ⟨fun id hrun => ?_, chunk, hchunk, hserves, fun e he => ?_⟩
      · obtain ⟨e, he, rfl⟩ := (hserves.page.run id).mp hrun
        exact hnext e he
      · obtain ⟨record, hrow, hrecord⟩ := hserves.page.records e he
        exact run_readOne hget hrow hrecord
    · exact absurd hflawed (hnone id hrun)
    · exact Or.inr ⟨hlast, hover⟩

/-- A store with the records of two entries. -/
def twoEntries : Store where
  engine := .table
  rows := Rows.applyAll ∅
    [.put (Key.log 2) (Stored.encode (foreign 2)), .put (Key.log 1) (Stored.encode (foreign 1))]

theorem getElem?_twoEntries {id : LogId} (h : id = 1 ∨ id = 2) :
    twoEntries.rows[Key.log id]? = some (Stored.encode (foreign id)) := by
  rcases h with rfl | rfl <;> decide +kernel

theorem logUpTo_twoEntries : twoEntries.rows.LogUpTo 2 := by
  intro key hkey _
  have hkeys : ∀ key ∈ twoEntries.rows.keys, key = Key.log 1 ∨ key = Key.log 2 := by decide +kernel
  rcases hkeys key (ExtTreeMap.mem_keys.mpr hkey) with rfl | rfl
  · exact ⟨1, by decide, rfl⟩
  · exact ⟨2, by decide, rfl⟩

theorem intact_twoEntries : twoEntries.rows.Intact 2 [foreign 1, foreign 2] where
  reached := rfl
  upTo := logUpTo_twoEntries
  numbered i hi := by
    match i, hi with
    | 0, _ => rfl
    | 1, _ => rfl
  records e he := by
    have hid : e = foreign e.id ∧ (e.id = 1 ∨ e.id = 2) := by
      rcases List.mem_cons.mp he with rfl | he
      · exact ⟨rfl, Or.inl rfl⟩
      · rw [List.mem_singleton.mp he]
        exact ⟨rfl, Or.inr rfl⟩
    rw [hid.1]
    exact ⟨_, getElem?_twoEntries hid.2, Stored.decode_encode (foreign_proper _).fits⟩

/-- Two entries are read one at a time: the first page under a limit of none, and all pages. -/
theorem readLog_serves_run_two :
    twoEntries.rows.LogUpTo 2 ∧ twoEntries.Answers .get ∧ twoEntries.Answers .scan ∧
    twoEntries.rows.Intact 2 [foreign 1, foreign 2] ∧
    ((readLog 2 9 3 0).run.run twoEntries).1 = .error (.consistency (.readerAhead 3 2)) ∧
    (∃ chunk, ((readLog 2 9 0 0).run.run twoEntries).1 = .ok chunk ∧
      Serves twoEntries.rows 2 9 0 1 chunk) ∧
    ∃ chunks, ((readPages 2 [(9, 0), (9, 1), (9, 70000)] 0).run.run twoEntries).1 = .ok chunks ∧
      chunks.flatMap (·.entries) = [foreign 1, foreign 2] := by
  have hget : twoEntries.Answers .get := Store.answers_of_no_outage rfl _
  have hscan : twoEntries.Answers .scan := Store.answers_of_no_outage rfl _
  obtain ⟨hpages, hall⟩ := readLog_serves_run logUpTo_twoEntries hget hscan
  obtain ⟨chunk, hchunk, hserves⟩ : ∃ chunk, ((readLog 2 9 0 0).run.run twoEntries).1 = .ok chunk ∧
      Serves twoEntries.rows 2 9 0 1 chunk := by
    rcases (hpages 9 0 0).2.2.2 (by decide) fun id hrun => intact_twoEntries.not_flawed hrun with
      ⟨-, chunk, hchunk, hserves, -⟩ | ⟨⟨id, hrun, hlast⟩, -⟩
    · exact ⟨chunk, hchunk, hserves⟩
    · exact absurd hlast
        (Counters.succ_ne_zero_of_le (logUpTo_twoEntries.le_of_inRun hrun) (by decide))
  obtain ⟨chunks, hchunks, hdelivers⟩ :=
    hall _ intact_twoEntries (by decide) 0 (by decide) [(9, 0), (9, 1), (9, 70000)]
  exact ⟨logUpTo_twoEntries, hget, hscan, intact_twoEntries, (hpages 9 3 0).1 (by decide),
    ⟨chunk, hchunk, hserves⟩, chunks, hchunks, hdelivers.complete (by decide)⟩

/-- The last id there is. -/
def lastId : LogId := 0xFFFFFFFFFFFFFFFF

/-- A store with the record of the last id. -/
def usedUp : Store where
  engine := .tree
  rows := Rows.applyAll ∅ [.put (Key.log lastId) (Stored.encode (foreign lastId))]

theorem logUpTo_usedUp : usedUp.rows.LogUpTo lastId := by
  intro key hkey _
  have hkeys : ∀ key ∈ usedUp.rows.keys, key = Key.log lastId := by decide +kernel
  exact ⟨lastId, UInt64.le_refl _, hkeys key (ExtTreeMap.mem_keys.mpr hkey)⟩

/-- Behind an entry of the last id the search for the next one breaks down: the page that would end at
the position is not handed out, although its record is sound and can be read on its own. -/
theorem last_page_breaks_down :
    usedUp.rows.LogUpTo lastId ∧
    ((readOne lastId).run.run usedUp).1 = .ok (some (foreign lastId)) ∧
    ((readLog lastId 9 (lastId - 1) 10).run.run usedUp).1 = .error .overflow := by
  have hid : (foreign lastId).id = lastId := rfl
  have hrow : usedUp.rows[Key.log lastId]? = some (Stored.encode (foreign lastId)) := by
    decide +kernel
  have hrecord : Stored.decode (Stored.encode (foreign lastId)) = .ok (foreign lastId) :=
    Stored.decode_encode (foreign_proper _).fits
  have honly : ∀ other, lastId - 1 < other → other = lastId := by
    intro other hother
    have hlt : 0xFFFFFFFFFFFFFFFE < other.toNat := UInt64.lt_iff_toNat_lt.mp hother
    have hmax := other.toNat_lt
    apply UInt64.toNat_inj.mp
    show other.toNat = 0xFFFFFFFFFFFFFFFF
    omega
  have hrun : usedUp.rows.InRun (lastId - 1) (pageSize 10).toNat lastId := by
    refine ⟨by decide, by decide, fun other hother _ => ?_⟩
    rw [honly other hother]
    exact Rows.mem_of_getElem? hrow
  have hread := run_readOne (Store.answers_of_no_outage rfl _) (hid ▸ hrow) hrecord
  rw [hid] at hread
  refine ⟨logUpTo_usedUp, hread, ?_⟩
  rcases (ensures_readLog_behind logUpTo_usedUp (Store.answers_of_no_outage rfl _) 9
    (show lastId - 1 < lastId by decide) 10).2 with
    ⟨chunk, -, hserves, hnext⟩ | ⟨-, id, -, hrun', record, hrecord', hflaw⟩ | ⟨hover, -⟩
  · obtain ⟨e, he, hid⟩ := (hserves.page.run lastId).mp hrun
    have hne := hnext e he
    rw [hid] at hne
    exact absurd rfl hne
  · rw [honly id hrun'.beyond, hrow, Option.some.injEq] at hrecord'
    exact absurd (hid.trans (honly id hrun'.beyond).symm) (hflaw _ (hrecord' ▸ hrecord))
  · exact hover

end Log

end LogShipping
