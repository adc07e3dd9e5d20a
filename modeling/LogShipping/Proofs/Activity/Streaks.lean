import LogShipping.Proofs.Activity.Marks

/-!
# Streaks of failures

A follower whose pulls fail in a row first probes all hosts and later elects a master. What it does next
is decided by the parts of the run so far (`Mark.Follows`): at one length of a streak of failures there
is a probe, at a greater one an election among the hosts heard of since the first of these failures, and
neither happens otherwise. The program counts the failures and keeps the time of the first one; between
two passes both agree with the run (`Resting`), and every pass keeps it so.

A streak is read off from the marks alone: it is the failures since the beginning, the last pull that
succeeded or the last election, whichever is latest (`streak`). So the counter of the program is not
trusted, it is compared with the run at the end of each pass, and the law of escalation speaks of the
run.

Only failures that may pass are counted. Which ones these are is a matter of `Error.isRecoverable`, and
a failure for good ends tailing at once, in whatever streak. A node that was promoted, or was told to
stop, leaves the loop between two parts, and a streak that was under way is not ended by that.
-/

namespace LogShipping

open Work Lifecycle Terms

/-! ## What follows what -/

namespace Mark

/-- The part is not under way any more. -/
def Ended : Mark → Prop
  | .pull _ outcome => outcome.isSome
  | .failure _ => True
  | .probe answers => answers.isSome
  | .election _ winner => winner.isSome

/-- A streak ends with a pull that succeeds, and with an election. -/
def breaks : Mark → Bool
  | .pull _ (some (.ok _)) | .election .. => true
  | _ => false

/-- The times of the failures of a streak, after one more part. -/
def extend (times : List Instant) (mark : Mark) : List Instant :=
  match mark with
  | .failure now => times ++ [now]
  | mark => if mark.breaks then [] else times

/-- The master, after one more part. -/
def follow (master : String) : Mark → String
  | .election _ (some (some winner)) => winner
  | _ => master

end Mark

/-- The streak: the times of the failures since the beginning, the last pull that succeeded or the last
election, whichever is latest. -/
def streak (marks : List Mark) : List Instant := marks.foldl Mark.extend []

/-- The winner of the last election, or else the first master. -/
def followed (master : String) (marks : List Mark) : String := marks.foldl Mark.follow master

/-- The last part is a pull that failed, but not for good. -/
def Failing (marks : List Mark) : Prop :=
  ∃ peer error, marks.getLast? = some (.pull peer (some (.error error))) ∧ error.isRecoverable = true

/-- The last part is the failure with which the streak has come to some length. -/
def Reaches (marks : List Mark) (count : UInt32) : Prop :=
  (∃ now, marks.getLast? = some (.failure now)) ∧ (streak marks).length = count.toNat

/-- A part may follow the parts before it: a failure is noted right after the pull that failed, all
hosts are probed right after the failure at the first threshold, and an election, which looks back to
the first failure of the streak, is right after the failure at the second threshold. -/
structure Mark.Follows (settings : Settings) (master : String) (before : List Mark) (mark : Mark) :
    Prop where
  ended : ∀ earlier ∈ before, earlier.Ended
  pull : ∀ peer outcome, mark = .pull peer outcome → peer = followed master before
  failure : (∃ now, mark = .failure now) ↔ Failing before
  probe : (∃ answers, mark = .probe answers) ↔ Reaches before settings.hostUpdateThreshold
  election : (∃ cutoff winner, mark = .election cutoff winner) ↔
    Reaches before settings.electionThreshold
  cutoff : ∀ cutoff winner, mark = .election cutoff winner → (streak before).head? = some cutoff

/-- Each part may follow the parts before it. -/
def Lawful (settings : Settings) (master : String) (marks : List Mark) : Prop :=
  ∀ before mark after, marks = before ++ mark :: after → mark.Follows settings master before

/-- All parts have ended, and the last one calls neither for a note nor for a probe or an election. -/
structure Quiet (settings : Settings) (marks : List Mark) : Prop where
  ended : ∀ mark ∈ marks, mark.Ended
  failing : ¬ Failing marks
  probe : ¬ Reaches marks settings.hostUpdateThreshold
  election : ¬ Reaches marks settings.electionThreshold

section Law

variable {settings : Settings} {master : String} {marks : List Mark} {mark : Mark} {count : UInt32}

@[simp] theorem streak_snoc : streak (marks ++ [mark]) = mark.extend (streak marks) := by
  simp [streak]

@[simp] theorem followed_snoc : followed master (marks ++ [mark]) = mark.follow (followed master marks) := by
  simp [followed]

@[simp] theorem Mark.follow_pull (peer : String) (outcome : Option (Except Error UInt64)) :
    (Mark.pull peer outcome).follow master = master := rfl

@[simp] theorem Mark.follow_failure (now : Instant) : (Mark.failure now).follow master = master := rfl

@[simp] theorem Mark.follow_probe (answers : Option Nat) : (Mark.probe answers).follow master = master := rfl

@[simp] theorem failing_snoc : Failing (marks ++ [mark]) ↔
    ∃ peer error, mark = .pull peer (some (.error error)) ∧ error.isRecoverable = true := by
  simp [Failing]

@[simp] theorem reaches_snoc : Reaches (marks ++ [mark]) count ↔
    ∃ now, mark = .failure now ∧ (streak marks).length + 1 = count.toNat := by
  constructor
  · rintro ⟨⟨now, hlast⟩, hlength⟩
    simp only [List.getLast?_append, List.getLast?_singleton, Option.some_or, Option.some.injEq] at hlast
    subst hlast
    exact ⟨now, rfl, by simpa [Mark.extend] using hlength⟩
  · rintro ⟨now, rfl, hlength⟩
    exact ⟨⟨now, by simp⟩, by simpa [Mark.extend] using hlength⟩

theorem lawful_nil : Lawful settings master [] := by
  intro before mark after h
  simp at h

theorem Lawful.snoc (h : Lawful settings master marks) (hmark : mark.Follows settings master marks) :
    Lawful settings master (marks ++ [mark]) := by
  intro before other after hsplit
  rcases List.eq_nil_or_concat after with rfl | ⟨after, last, rfl⟩
  · obtain ⟨rfl, hlast⟩ := List.append_inj' hsplit rfl
    cases hlast
    exact hmark
  · rw [List.concat_eq_append, ← List.cons_append, ← List.append_assoc] at hsplit
    exact h before other after (List.append_inj' hsplit rfl).1

theorem quiet_nil : Quiet settings [] := by
  refine ⟨by simp, ?_, ?_, ?_⟩
  · simp [Failing]
  · simp [Reaches]
  · simp [Reaches]

theorem ended_snoc (hended : ∀ earlier ∈ marks, earlier.Ended) (hmark : mark.Ended) :
    ∀ earlier ∈ marks ++ [mark], earlier.Ended := by
  intro earlier hearlier
  rcases List.mem_append.mp hearlier with hearlier | hearlier
  · exact hended earlier hearlier
  · rw [List.mem_singleton.mp hearlier]
    exact hmark

/-- A part that calls for nothing. -/
theorem quiet_snoc (hended : ∀ earlier ∈ marks, earlier.Ended) (hmark : mark.Ended)
    (hfailing : ∀ peer error, mark = .pull peer (some (.error error)) → error.isRecoverable = false)
    (hfailure : ∀ now, mark ≠ .failure now) : Quiet settings (marks ++ [mark]) where
  ended := ended_snoc hended hmark
  failing := by
    rw [failing_snoc]
    rintro ⟨peer, error, hpull, hrecoverable⟩
    rw [hfailing peer error hpull] at hrecoverable
    cases hrecoverable
  probe := by
    rw [reaches_snoc]
    exact fun ⟨now, hnow, _⟩ => hfailure now hnow
  election := by
    rw [reaches_snoc]
    exact fun ⟨now, hnow, _⟩ => hfailure now hnow

/-- What follows where nothing is called for is a pull from the master. -/
theorem Quiet.pull (h : Quiet settings marks) (outcome : Option (Except Error UInt64)) :
    (Mark.pull (followed master marks) outcome).Follows settings master marks where
  ended := h.ended
  pull := by
    rintro peer outcome ⟨⟩
    rfl
  failure := ⟨nofun, fun hfailing => (h.failing hfailing).elim⟩
  probe := ⟨nofun, fun hreaches => (h.probe hreaches).elim⟩
  election := ⟨nofun, fun hreaches => (h.election hreaches).elim⟩
  cutoff := nofun

theorem follows_failure {peer : String} {error : Error} (hended : ∀ earlier ∈ marks, earlier.Ended)
    (hrecoverable : error.isRecoverable = true) (now : Instant) :
    (Mark.failure now).Follows settings master (marks ++ [.pull peer (some (.error error))]) where
  ended := ended_snoc hended rfl
  pull := nofun
  failure := by simp [hrecoverable]
  probe := by simp
  election := by simp
  cutoff := nofun

/-- Between two passes, with the streak that the program counts. -/
structure Resting (settings : Settings) (master : String) (t : Streak) (marks : List Mark) : Prop where
  lawful : Lawful settings master marks
  quiet : Quiet settings marks
  length : (streak marks).length = t.failures.toNat
  since : (streak marks).head? = t.since
  below : t.failures < settings.electionThreshold

/-- After the note of a failure, the program having counted as many failures. -/
structure Noted (settings : Settings) (master : String) (failures : UInt32) (since : Instant)
    (marks : List Mark) : Prop where
  lawful : Lawful settings master marks
  ended : ∀ mark ∈ marks, mark.Ended
  latest : ∃ now, marks.getLast? = some (.failure now)
  length : (streak marks).length = failures.toNat
  since : (streak marks).head? = some since
  bound : failures ≤ settings.electionThreshold

/-- With a new streak. -/
theorem resting_empty (hlawful : Lawful settings master marks) (hquiet : Quiet settings marks)
    (hempty : streak marks = []) (hbelow : 0 < settings.electionThreshold) :
    Resting settings master {} marks where
  lawful := hlawful
  quiet := hquiet
  length := by
    rw [hempty]
    rfl
  since := by
    rw [hempty]
    rfl
  below := hbelow

theorem streak_noted (peer : String) (error : Error) (now : Instant) :
    streak (marks ++ [.pull peer (some (.error error))] ++ [.failure now]) = streak marks ++ [now] := by
  rw [streak_snoc, streak_snoc]
  rfl

theorem Resting.noted {t : Streak} (h : Resting settings master t marks) {error : Error}
    (hrecoverable : error.isRecoverable = true) (now : Instant) :
    Noted settings master (t.failures + 1) (t.since.getD now)
      (marks ++ [.pull (followed master marks) (some (.error error))] ++ [.failure now]) where
  lawful := (h.lawful.snoc (h.quiet.pull _)).snoc (follows_failure h.quiet.ended hrecoverable now)
  ended := ended_snoc (ended_snoc h.quiet.ended rfl) trivial
  latest := ⟨now, List.getLast?_concat⟩
  length := by
    rw [streak_noted, List.length_append, List.length_singleton, h.length, toNat_succ h.below]
  since := by
    rw [streak_noted, List.head?_append, h.since]
    cases t.since <;> rfl
  bound := by
    have hbelow := UInt32.lt_iff_toNat_lt.mp h.below
    rw [UInt32.le_iff_toNat_le, toNat_succ h.below]
    omega

namespace Noted

variable {failures : UInt32} {since : Instant}

theorem reaches_iff (h : Noted settings master failures since marks) :
    Reaches marks count ↔ failures = count := by
  rw [Reaches, h.length, and_iff_right h.latest, UInt32.toNat_inj]

theorem not_failing (h : Noted settings master failures since marks) : ¬ Failing marks := by
  rintro ⟨peer, error, hlast, -⟩
  obtain ⟨now, hlatest⟩ := h.latest
  rw [hlatest] at hlast
  cases hlast

theorem probe (h : Noted settings master failures since marks)
    (hprobe : failures = settings.hostUpdateThreshold)
    (helection : failures ≠ settings.electionThreshold) (answers : Option Nat) :
    (Mark.probe answers).Follows settings master marks where
  ended := h.ended
  pull := nofun
  failure := ⟨nofun, fun hfailing => (h.not_failing hfailing).elim⟩
  probe := ⟨fun _ => h.reaches_iff.mpr hprobe, fun _ => ⟨answers, rfl⟩⟩
  election := ⟨nofun, fun hreaches => (helection (h.reaches_iff.mp hreaches)).elim⟩
  cutoff := nofun

theorem election (h : Noted settings master failures since marks)
    (hprobe : failures ≠ settings.hostUpdateThreshold)
    (helection : failures = settings.electionThreshold) (winner : Option (Option String)) :
    (Mark.election since winner).Follows settings master marks where
  ended := h.ended
  pull := nofun
  failure := ⟨nofun, fun hfailing => (h.not_failing hfailing).elim⟩
  probe := ⟨nofun, fun hreaches => (hprobe (h.reaches_iff.mp hreaches)).elim⟩
  election := ⟨fun _ => h.reaches_iff.mpr helection, fun _ => ⟨since, winner, rfl⟩⟩
  cutoff := by
    rintro cutoff winner ⟨⟩
    exact h.since

theorem resting (h : Noted settings master failures since marks)
    (hprobe : failures ≠ settings.hostUpdateThreshold)
    (helection : failures ≠ settings.electionThreshold) :
    Resting settings master ⟨failures, some since⟩ marks where
  lawful := h.lawful
  quiet := ⟨h.ended, h.not_failing, fun hreaches => hprobe (h.reaches_iff.mp hreaches),
    fun hreaches => helection (h.reaches_iff.mp hreaches)⟩
  length := h.length
  since := h.since
  below := UInt32.lt_of_le_of_ne h.bound helection

theorem resting_probed (h : Noted settings master failures since marks)
    (hprobe : failures = settings.hostUpdateThreshold)
    (helection : failures ≠ settings.electionThreshold) (answers : Nat) :
    Resting settings master ⟨failures, some since⟩ (marks ++ [.probe (some answers)]) where
  lawful := h.lawful.snoc (h.probe hprobe helection _)
  quiet := quiet_snoc h.ended rfl nofun nofun
  length := by simpa [Mark.extend, Mark.breaks] using h.length
  since := by simpa [Mark.extend, Mark.breaks] using h.since
  below := UInt32.lt_of_le_of_ne h.bound helection

end Noted

end Law

/-! ## Stories of tailing -/

/-- A run of tailing so far: it can be told in sections with these marks, the node has this role, and it
follows this master. -/
structure Tails (n₀ : Node) (isMaster : Bool) (master : String) (ms : List Mark) (h : List Deed)
    (n : Node) : Prop where
  told : ∃ sections, Told n₀ sections n ∧ deedsOf sections = h ∧ marks sections = ms
  url : n.url = n₀.url
  settings : n.settings = n₀.settings
  self : n.hosts.self = n₀.hosts.self
  isMaster : n.standing.isMaster = isMaster
  master : n.standing.master = master

namespace Tails

variable {n₀ n n' : Node} {isMaster isMaster' : Bool} {master master' : String} {ms : List Mark}
  {h deeds : List Deed} {mark : Option Mark}

theorem start (n : Node) : Tails n n.standing.isMaster n.standing.master [] [] n :=
  ⟨⟨[], rfl, rfl, rfl⟩, rfl, rfl, rfl, rfl, rfl⟩

/-- One more part, which may change the role and the master. -/
theorem move (htails : Tails n₀ isMaster master ms h n) (hpart : Part mark n deeds n')
    (hurl : n'.url = n.url) (hsettings : n'.settings = n.settings) (hself : n'.hosts.self = n.hosts.self)
    (hisMaster : n'.standing.isMaster = isMaster') (hmaster : n'.standing.master = master') :
    Tails n₀ isMaster' master' (ms ++ mark.toList) (h ++ deeds) n' := by
  obtain ⟨sections, htold, hdeeds, hmarks⟩ := htails.told
  refine ⟨⟨sections ++ [⟨mark, n, deeds, n'⟩], htold.snoc hpart, ?_, ?_⟩, hurl.trans htails.url,
    hsettings.trans htails.settings, hself.trans htails.self, hisMaster, hmaster⟩
  · simp [hdeeds]
  · simp [hmarks]

theorem part (htails : Tails n₀ isMaster master ms h n) (hpart : Part mark n deeds n')
    (hakin : n.Akin n') : Tails n₀ isMaster master (ms ++ mark.toList) (h ++ deeds) n' :=
  htails.move hpart hakin.url hakin.settings hakin.self (hakin.isMaster.trans htails.isMaster)
    (hakin.master.trans htails.master)

theorem aside (htails : Tails n₀ isMaster master ms h n) (haside : Aside n deeds n')
    (hakin : n.Akin n') : Tails n₀ isMaster master ms (h ++ deeds) n' := by
  have hpart : Part none n deeds n' := haside
  simpa using htails.part hpart hakin

theorem steady (n₀ : Node) (isMaster : Bool) (master : String) (ms : List Mark) :
    Story.Steady (Tails n₀ isMaster master ms) where
  beside := fun htails hbeside => htails.aside (.beside hbeside) hbeside.alike.akin
  round := fun htails => htails.aside (.round _) (.refl _)

end Tails

/-- A node follows the winner of the last election, unless that has just been elected, or it is master. -/
def Heeds (master₀ : String) (isMaster : Bool) (master : String) (ms : List Mark) : Prop :=
  isMaster = true ∨ master = followed master₀ ms ∨
    ∃ before cutoff winner, ms = before ++ [.election cutoff winner] ∧ master = followed master₀ before

section Tailing

variable (n₀ : Node)

/-- A follower that goes on, or that has ended without an election to heed. -/
def Follower : Story := fun h n => ∃ isMaster ms, Lawful n₀.settings n₀.standing.master ms ∧
  Quiet n₀.settings ms ∧ Tails n₀ isMaster (followed n₀.standing.master ms) ms h n

/-- What is asked of tailing that has not come to an end. -/
def escalating : Terms where
  underWay h n := ∃ isMaster master ms, Lawful n₀.settings n₀.standing.master ms ∧
    Heeds n₀.standing.master isMaster master ms ∧ Tails n₀ isMaster master ms h n
  failed _ := Follower n₀

/-- How tailing ends. -/
def Left : TailEnd → Story
  | .shutdown => Follower n₀
  | .promoted => fun h n => ∃ master ms, Lawful n₀.settings n₀.standing.master ms ∧
    Quiet n₀.settings ms ∧ Tails n₀ true master ms h n

/-- Between two passes. -/
def Rests (t : Streak) : Story := fun h n => ∃ ms, Resting n₀.settings n₀.standing.master t ms ∧
  ∃ isMaster, Tails n₀ isMaster (followed n₀.standing.master ms) ms h n

/-- How a pass ends. -/
def Passed : Streak ⊕ TailEnd → Story
  | .inl t => Rests n₀ t
  | .inr ending => Left n₀ ending

variable {n₀} {isMaster : Bool} {master : String} {ms : List Mark}

theorem waits_tails (hlawful : Lawful n₀.settings n₀.standing.master ms)
    (hheeds : Heeds n₀.standing.master isMaster master ms) :
    (escalating n₀).Waits (Tails n₀ isMaster master ms) :=
  ⟨Tails.steady n₀ isMaster master ms, fun htails => ⟨_, _, _, hlawful, hheeds, htails⟩⟩

/-- A part of its own: work that keeps nodes akin and cannot fail. -/
theorem acts_part {T : Terms} {α : Type} {work : Work α} (part : Option α → Option Mark)
    {P : Node → Story} (hP : ∀ m, P m [] m)
    (hkept : ∀ m, (sure (Kept m)).Acts work (P m) fun _ => Kept m)
    (hpart : ∀ m deeds r m', work.run.Runs m deeds (Option.map .ok r) m' → Part (part r) m deeds m')
    (hunderWay : ∀ h m, Tails n₀ isMaster master (ms ++ (part none).toList) h m → T.underWay h m) :
    T.Acts work (Tails n₀ isMaster master ms) fun a =>
      Tails n₀ isMaster master (ms ++ (part (some a)).toList) := by
  intro h m deeds r m' htails hrun
  have hends := hkept m [] m deeds r m' (hP m) hrun
  match r with
  | none => exact hunderWay _ _ (htails.part (hpart m deeds none m' hrun) hends.akin)
  | some (.error _) => exact hends.elim
  | some (.ok a) => exact htails.part (hpart m deeds (some a) m' hrun) hends.akin

/-- A look at the node. -/
theorem acts_look {α : Type} {look : Node → α} {Q : α → Prop}
    (hlawful : Lawful n₀.settings n₀.standing.master ms)
    (hheeds : Heeds n₀.standing.master isMaster master ms)
    (hlook : ∀ h m, Tails n₀ isMaster master ms h m → Q (look m)) :
    (escalating n₀).Acts (inspect look) (Tails n₀ isMaster master ms) fun a h m =>
      Q a ∧ Tails n₀ isMaster master ms h m :=
  Acts.inspect (waits_tails hlawful hheeds) fun h m now htails =>
    ⟨hlook h m htails, htails.aside (.inspect (runs_inspect look now m)) (.refl m)⟩

theorem acts_restAfter (isMaster : Bool) (interval : Settings → UInt64) {t : Streak}
    (hrests : Resting n₀.settings n₀.standing.master t ms) :
    (escalating n₀).Acts (restAfter interval t)
      (Tails n₀ isMaster (followed n₀.standing.master ms) ms) (Passed n₀) := by
  have hheeds : Heeds n₀.standing.master isMaster (followed n₀.standing.master ms) ms := .inr (.inl rfl)
  unfold restAfter
  refine Acts.bind (acts_look (Q := fun _ => True) hrests.lawful hheeds fun _ _ _ => trivial)
    fun settings => Acts.assuming fun _ => ?_
  refine Acts.bind (R := fun _ => Tails n₀ isMaster (followed n₀.standing.master ms) ms) ?_ fun stopped => ?_
  · refine Acts.pause (waits_tails hrests.lawful hheeds) fun h m stopped htails => ?_
    exact htails.aside (.pause (runs_pause _ stopped m)) (.refl m)
  · refine Acts.pure fun h m htails => ?_
    cases stopped with
    | true => exact ⟨isMaster, ms, hrests.lawful, hrests.quiet, htails⟩
    | false => exact ⟨ms, hrests, isMaster, htails⟩

/-- Following another master. -/
theorem acts_retarget (winner : String) (hlawful : Lawful n₀.settings n₀.standing.master ms)
    (hheeds : Heeds n₀.standing.master isMaster master ms) :
    (escalating n₀).Acts (retarget winner) (Tails n₀ isMaster master ms) fun _ =>
      Tails n₀ false winner ms := by
  refine Acts.change (waits_tails hlawful hheeds) fun h m now htails => ?_
  have hpart : Part none m [.work now m { m.restand (·.follow winner) with buffer := m.buffer.clear }]
      { m.restand (·.follow winner) with buffer := m.buffer.clear } :=
    Aside.retarget (runs_change _ now m)
  have hmoved : Tails n₀ false winner (ms ++ []) (h ++ _) _ := htails.move hpart rfl rfl rfl rfl rfl
  rwa [List.append_nil] at hmoved

/-- What an election does to the node. -/
theorem Node.elect_cases (n : Node) (cutoff : Instant) :
    (n.elect cutoff).2.url = n.url ∧ (n.elect cutoff).2.settings = n.settings ∧
      ((n.elect cutoff).1.map (·.url) = some n.hosts.self →
        (n.elect cutoff).2.standing.isMaster = true) ∧
      ((n.elect cutoff).1.map (·.url) ≠ some n.hosts.self → (n.elect cutoff).2 = n) := by
  unfold Node.elect
  split
  · next winner hwinner =>
    split
    · next hself => exact ⟨rfl, rfl, fun _ => rfl, fun hother => (hother (by simp [hself.1])).elim⟩
    · next hself =>
      refine ⟨rfl, rfl, fun hown => ?_, fun _ => rfl⟩
      by_contra hfollower
      exact hself ⟨Option.some.inj hown, by simpa using hfollower⟩
  · exact ⟨rfl, rfl, nofun, fun _ => rfl⟩

/-- An election, after which the node is master if it has won. -/
theorem acts_election {failures : UInt32} {since : Instant} (hself : n₀.hosts.self = n₀.url)
    (hnoted : Noted n₀.settings n₀.standing.master failures since ms)
    (hprobe : failures ≠ n₀.settings.hostUpdateThreshold)
    (helection : failures = n₀.settings.electionThreshold) :
    (escalating n₀).Acts (elect since) (Tails n₀ isMaster (followed n₀.standing.master ms) ms)
      fun winner h n => ∃ isMaster' master',
        ((winner = some n₀.url → isMaster' = true) ∧
          (winner ≠ some n₀.url → isMaster' = isMaster ∧ master' = followed n₀.standing.master ms)) ∧
        Tails n₀ isMaster' master' (ms ++ [.election since (some winner)]) h n := by
  intro h m deeds r m' htails hrun
  have hends := acts_elect m since [] m deeds r m' (.refl m) hrun
  match r with
  | none =>
    have hkept : Kept m deeds m' := hends
    have hpart : Part (some (.election since none)) m deeds m' := hrun
    exact ⟨_, _, _, hnoted.lawful.snoc (hnoted.election hprobe helection none), .inr (.inl (by simp; rfl)),
      htails.part hpart hkept.akin⟩
  | some (.error _) => exact hends.elim
  | some (.ok winner) =>
    have hpart : Part (some (.election since (some winner))) m deeds m' := hrun
    obtain ⟨waiting, now, b, -, ⟨⟨hakin, -⟩, -⟩, hwinner, hm'⟩ := hends
    obtain ⟨hurl, hsettings, hwins, hloses⟩ := Node.elect_cases b since
    have hhosts := Node.hosts_elect b since
    rw [← hm'] at hurl hsettings hwins hloses hhosts
    have hbself : b.hosts.self = n₀.url := (hakin.self.trans htails.self).trans hself
    rw [← hwinner, hbself] at hwins hloses
    refine ⟨m'.standing.isMaster, m'.standing.master, ⟨hwins, fun hother => ?_⟩,
      htails.move hpart (hurl.trans hakin.url) (hsettings.trans hakin.settings)
        ((congrArg HostTable.self hhosts).trans hakin.self) rfl rfl⟩
    rw [hloses hother]
    exact ⟨hakin.isMaster.trans htails.isMaster, hakin.master.trans htails.master⟩

theorem acts_endStreak (isMaster : Bool) {failures : UInt32} {since : Instant} (hself : n₀.hosts.self = n₀.url)
    (hbelow : 0 < n₀.settings.electionThreshold)
    (hnoted : Noted n₀.settings n₀.standing.master failures since ms)
    (hprobe : failures ≠ n₀.settings.hostUpdateThreshold)
    (helection : failures = n₀.settings.electionThreshold) :
    (escalating n₀).Acts (endStreak (followed n₀.standing.master ms) since)
      (Tails n₀ isMaster (followed n₀.standing.master ms) ms) (Passed n₀) := by
  unfold endStreak
  refine Acts.bind (acts_election hself hnoted hprobe helection) fun winner => ?_
  refine Acts.of_exists fun isMaster' => Acts.of_exists fun master' => Acts.assuming ?_
  rintro ⟨hwins, hloses⟩
  have hlawful := hnoted.lawful.snoc (hnoted.election hprobe helection (some winner))
  have hquiet : Quiet n₀.settings (ms ++ [.election since (some winner)]) :=
    quiet_snoc hnoted.ended rfl nofun nofun
  have hresting : Resting n₀.settings n₀.standing.master {} (ms ++ [.election since (some winner)]) :=
    resting_empty hlawful hquiet streak_snoc hbelow
  cases winner with
  | none =>
    obtain ⟨rfl, rfl⟩ := hloses nofun
    have hrest := acts_restAfter isMaster' (·.idleInterval) hresting
    rw [followed_snoc] at hrest
    exact hrest
  | some winner =>
    have hfollowed : followed n₀.standing.master (ms ++ [.election since (some (some winner))]) = winner :=
      followed_snoc
    have hrest := fun isMaster => acts_restAfter isMaster (·.idleInterval) hresting
    rw [hfollowed] at hrest
    have hheeds : Heeds n₀.standing.master isMaster' master'
        (ms ++ [.election since (some (some winner))]) := by
      by_cases hown : winner = n₀.url
      · exact .inl (hwins (by rw [hown]))
      · exact .inr (.inr ⟨ms, since, _, rfl, (hloses (by simpa using hown)).2⟩)
    refine Acts.bind (acts_look (Q := (· = n₀.url)) hlawful hheeds fun _ _ htails => htails.url)
      fun url => Acts.assuming ?_
    rintro rfl
    split
    · next hown =>
      obtain rfl : isMaster' = true := hwins (by rw [hown])
      exact Acts.pure fun h m htails => ⟨master', _, hlawful, hquiet, htails⟩
    · next hother =>
      obtain ⟨rfl, rfl⟩ := hloses (by simpa using hother)
      split
      · exact Acts.bind (acts_retarget winner hlawful hheeds) fun _ => hrest false
      · next hsame =>
        rw [← not_not.mp hsame]
        exact hrest isMaster'

/-- The note of a failure, right after the pull that failed. -/
theorem acts_note {t : Streak} {error : Error} (hrests : Resting n₀.settings n₀.standing.master t ms) :
    (escalating n₀).Acts clock
      (Tails n₀ isMaster (followed n₀.standing.master ms)
        (ms ++ [.pull (followed n₀.standing.master ms) (some (.error error))])) fun now =>
      Tails n₀ isMaster (followed n₀.standing.master ms)
        (ms ++ [.pull (followed n₀.standing.master ms) (some (.error error))] ++ [.failure now]) := by
  refine acts_part (fun | none => none | some now => some (.failure now)) (fun m => Kept.refl m)
    kept_clock ?_ ?_
  · intro m deeds r m' hrun
    match r with
    | none => exact Aside.clock hrun
    | some now => exact hrun
  · intro h m htails
    rw [Option.toList_none, List.append_nil] at htails
    exact ⟨_, _, _, hrests.lawful.snoc (hrests.quiet.pull _), .inr (.inl (by simp)), htails⟩

/-- The probe of all hosts, right after the failure at the first threshold. -/
theorem acts_probe {failures : UInt32} {since : Instant}
    (hnoted : Noted n₀.settings n₀.standing.master failures since ms)
    (hprobe : failures = n₀.settings.hostUpdateThreshold)
    (helection : failures ≠ n₀.settings.electionThreshold) :
    (escalating n₀).Acts hostUpdate (Tails n₀ isMaster (followed n₀.standing.master ms) ms) fun answers =>
      Tails n₀ isMaster (followed n₀.standing.master ms) (ms ++ [.probe (some answers)]) := by
  refine acts_part (P := Unasked) (fun answers => some (.probe answers))
    (fun m => ⟨Kept.refl m, by simp [Answered]⟩) ?_ (fun m deeds r m' hrun => hrun) ?_
  · exact fun m => (acts_hostUpdate m).mono (fun _ _ h => h) fun _ _ _ h => h.1
  · exact fun h m htails => ⟨_, _, _, hnoted.lawful.snoc (hnoted.probe hprobe helection none),
      .inr (.inl (by simp)), htails⟩

theorem acts_noteFailure (isMaster : Bool) {t : Streak} {error : Error} (hself : n₀.hosts.self = n₀.url)
    (hless : n₀.settings.hostUpdateThreshold < n₀.settings.electionThreshold)
    (hrests : Resting n₀.settings n₀.standing.master t ms) (hrecoverable : error.isRecoverable = true) :
    (escalating n₀).Acts (noteFailure (followed n₀.standing.master ms) t)
      (Tails n₀ isMaster (followed n₀.standing.master ms)
        (ms ++ [.pull (followed n₀.standing.master ms) (some (.error error))])) (Passed n₀) := by
  unfold noteFailure
  refine Acts.bind (acts_note hrests) fun now => ?_
  have hnoted := hrests.noted hrecoverable now
  have hfollowed : followed n₀.standing.master
      (ms ++ [.pull (followed n₀.standing.master ms) (some (.error error))] ++ [.failure now]) =
      followed n₀.standing.master ms := by
    rw [followed_snoc, Mark.follow_failure, followed_snoc, Mark.follow_pull]
  -- from here on only the parts up to the note matter
  generalize ms ++ [.pull (followed n₀.standing.master ms) (some (.error error))] ++ [.failure now] = noted
    at hnoted hfollowed ⊢
  rw [← hfollowed]
  refine Acts.bind (acts_look (Q := (· = n₀.settings)) hnoted.lawful (.inr (.inl rfl))
    fun _ _ htails => htails.settings) fun settings => Acts.assuming ?_
  rintro rfl
  dsimp only
  by_cases hprobe : t.failures + 1 = n₀.settings.hostUpdateThreshold
  · -- the probe comes before any election
    have hbefore : t.failures + 1 < n₀.settings.electionThreshold := hprobe ▸ hless
    rw [if_pos hprobe, if_neg (UInt32.not_le.mpr hbefore)]
    refine Acts.bind (acts_probe hnoted hprobe (UInt32.ne_of_lt hbefore)) fun answers => ?_
    have hrest := acts_restAfter isMaster (·.idleInterval)
      (hnoted.resting_probed hprobe (UInt32.ne_of_lt hbefore) answers)
    rw [followed_snoc, Mark.follow_probe] at hrest
    exact hrest
  · rw [if_neg hprobe]
    split
    · next hreached =>
      have helection := UInt32.le_antisymm hnoted.bound hreached
      have hbelow : 0 < n₀.settings.electionThreshold := UInt32.lt_of_le_of_lt UInt32.zero_le hless
      exact acts_endStreak isMaster hself hbelow hnoted hprobe helection
    · next hgoes =>
      have hbefore : t.failures + 1 ≠ n₀.settings.electionThreshold := by
        rintro hsame
        exact hgoes (UInt32.le_of_eq hsame.symm)
      exact acts_restAfter isMaster (·.idleInterval) (hnoted.resting hprobe hbefore)

theorem acts_drainPushed {t : Streak} (hrests : Resting n₀.settings n₀.standing.master t ms) :
    (escalating n₀).Acts drainPushed (Tails n₀ isMaster (followed n₀.standing.master ms) ms) fun _ =>
      Tails n₀ isMaster (followed n₀.standing.master ms) ms := by
  intro h m deeds r m' htails hrun
  have hdrained := htails.aside (.drain hrun) ((kept_of_calm m calm_drainPushed).kept (Kept.refl m) hrun).akin
  match r with
  | none => exact ⟨_, _, _, hrests.lawful, .inr (.inl rfl), hdrained⟩
  | some (.error _) => exact ⟨isMaster, ms, hrests.lawful, hrests.quiet, hdrained⟩
  | some (.ok _) => exact hdrained

/-- A pull from the master, whatever comes of it. -/
theorem acts_pulled {t : Streak} (hrests : Resting n₀.settings n₀.standing.master t ms) :
    (escalating n₀).Acts (outcome (pullAndApply (followed n₀.standing.master ms)))
      (Tails n₀ isMaster (followed n₀.standing.master ms) ms) fun outcome =>
      Tails n₀ isMaster (followed n₀.standing.master ms)
        (ms ++ [.pull (followed n₀.standing.master ms) (some outcome)]) := by
  refine acts_part (fun outcome => some (.pull (followed n₀.standing.master ms) outcome))
    (fun m => Kept.refl m) (fun m => Acts.outcome (kept_of_calm m (calm_pullAndApply _)))
    (fun m deeds r m' hrun => hrun) ?_
  exact fun h m htails => ⟨_, _, _, hrests.lawful.snoc (hrests.quiet.pull none),
    .inr (.inl (by simp)), htails⟩

/-- After a pull that has failed for good. -/
theorem Tails.follower {t : Streak} {error : Error} (hrests : Resting n₀.settings n₀.standing.master t ms)
    (hfor : error.isRecoverable = false) {h : List Deed} {n : Node}
    (htails : Tails n₀ isMaster (followed n₀.standing.master ms)
      (ms ++ [.pull (followed n₀.standing.master ms) (some (.error error))]) h n) : Follower n₀ h n := by
  refine ⟨isMaster, _, hrests.lawful.snoc (hrests.quiet.pull (some (.error error))),
    quiet_snoc hrests.quiet.ended rfl ?_ nofun, ?_⟩
  · rintro peer error ⟨⟩
    exact hfor
  · rw [followed_snoc]
    exact htails

theorem acts_tailPass (hself : n₀.hosts.self = n₀.url)
    (hless : n₀.settings.hostUpdateThreshold < n₀.settings.electionThreshold) (t : Streak) :
    (escalating n₀).Acts (tailPass t) (Rests n₀ t) (Passed n₀) := by
  refine Acts.of_exists fun ms => Acts.assuming fun hrests => Acts.of_exists fun isMaster => ?_
  unfold tailPass
  refine Acts.bind (acts_look (Q := fun standing => standing.isMaster = isMaster) hrests.lawful
    (.inr (.inl rfl)) fun _ _ htails => htails.isMaster) fun standing => Acts.assuming fun hstanding => ?_
  split
  · exact Acts.pure fun h m htails => ⟨isMaster, ms, hrests.lawful, hrests.quiet, htails⟩
  split
  · next hrole =>
    obtain rfl : isMaster = true := hstanding.symm.trans hrole
    exact Acts.pure fun h m htails => ⟨_, ms, hrests.lawful, hrests.quiet, htails⟩
  refine Acts.bind (acts_drainPushed hrests) fun _ => ?_
  refine Acts.bind (acts_look (Q := (· = followed n₀.standing.master ms)) hrests.lawful (.inr (.inl rfl))
    fun _ _ htails => htails.master) fun peer => Acts.assuming ?_
  rintro rfl
  refine Acts.bind (acts_pulled hrests) fun outcome => ?_
  split
  · next moved =>
    have hlawful := hrests.lawful.snoc (hrests.quiet.pull (some (.ok moved)))
    have hquiet : Quiet n₀.settings (ms ++ [.pull (followed n₀.standing.master ms) (some (.ok moved))]) := by
      refine quiet_snoc hrests.quiet.ended rfl ?_ nofun
      rintro peer error ⟨⟩
    have hrest := acts_restAfter isMaster (if moved = 0 then (·.idleInterval) else (·.busyInterval))
      (resting_empty hlawful hquiet streak_snoc (UInt32.lt_of_le_of_lt UInt32.zero_le hless))
    rw [followed_snoc] at hrest
    exact hrest
  · exact Acts.pure fun h m => Tails.follower hrests rfl
  · next error _ =>
    split
    · next hrecoverable => exact acts_noteFailure isMaster hself hless hrests hrecoverable
    · next hfatal => exact Acts.fail fun h m => Tails.follower hrests (by simpa using hfatal)

theorem acts_tail (hself : n₀.hosts.self = n₀.url)
    (hless : n₀.settings.hostUpdateThreshold < n₀.settings.electionThreshold) :
    (escalating n₀).Acts tail (Tails n₀ n₀.standing.isMaster n₀.standing.master []) (Left n₀) := by
  have hresting : Resting n₀.settings n₀.standing.master {} [] :=
    resting_empty lawful_nil quiet_nil rfl (UInt32.lt_of_le_of_lt UInt32.zero_le hless)
  have hwaits : ∀ isMaster ms, Lawful n₀.settings n₀.standing.master ms →
      (escalating n₀).Waits (Tails n₀ isMaster (followed n₀.standing.master ms) ms) :=
    fun isMaster ms hlawful => waits_tails hlawful (.inr (.inl rfl))
  unfold tail
  refine Acts.bind (R := fun _ => Tails n₀ n₀.standing.isMaster n₀.standing.master []) ?_ fun _ => ?_
  · exact Acts.change (hwaits _ [] lawful_nil) fun h m now htails =>
      htails.aside (.enter (runs_change _ now m)) ⟨rfl, rfl, rfl, rfl, rfl⟩
  · refine (Acts.iterate (Rests n₀) (fun t => ?_) fun t => ?_).mono
      (fun h m htails => ⟨[], hresting, _, htails⟩) fun _ _ _ h => h
    · refine ⟨⟨?_, ?_⟩, ?_⟩
      · exact fun ⟨ms, hrests, isMaster, htails⟩ hbeside =>
          ⟨ms, hrests, isMaster, (hwaits isMaster ms hrests.lawful).beside htails hbeside⟩
      · exact fun ⟨ms, hrests, isMaster, htails⟩ =>
          ⟨ms, hrests, isMaster, (hwaits isMaster ms hrests.lawful).round htails⟩
      · exact fun ⟨ms, hrests, isMaster, htails⟩ => (hwaits isMaster ms hrests.lawful).underWay htails
    · refine (acts_tailPass hself hless t).mono (fun _ _ h => h) ?_
      rintro (next | ending) h m hpassed
      · exact hpassed
      · exact hpassed

end Tailing

end LogShipping
