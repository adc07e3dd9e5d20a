import LogShipping.Proofs.Host.Notes

/-!
# Elections and the past of a table

A table is the outcome of what the node was told: observations of single hosts and whole snapshots, in
any order (`HostTable.Report`). The election looks at none of this. The winner is the one host, among
those heard of since the cutoff, that beats all others (`winner?_eq_some_iff`); so tables that hold the
same positions of the same hosts elect the same one, whatever else they hold and however they came
about.

What a host is best among is said without the fold that finds it: `Offers` names the hosts that come
into question, and `Best` is a comparison with each of them. A host that is best among some offers is
best among the same offers in any other table (`Best.transfer`), so agreement of two nodes is agreement
of their offers, stamps aside.

Nothing is promised where the offers differ. Two nodes that heard of different hosts since their
cutoffs, or that know different positions of one host, may elect different winners, and both may act on
it.
-/

namespace LogShipping

namespace HostTable

/-! ## Histories -/

/-- What a node may be told of hosts. -/
inductive Report where
  /-- A host was at a position at some time. -/
  | seen (url : String) (position : LogId) (time : Instant)
  /-- The table of another node. -/
  | snapshot (hosts : List Host)

/-- The table after a report. -/
def after (table : HostTable) : Report → HostTable
  | .seen url position time => table.observe url position time
  | .snapshot hosts => table.adopt hosts

/-- The table after some reports. -/
def run (table : HostTable) (history : List Report) : HostTable := history.foldl after table

theorem grows_after (table : HostTable) (report : Report) : table.Grows (table.after report) := by
  cases report with
  | seen url position time => exact (gains_observe table url position time).grows
  | snapshot hosts => exact grows_adopt table hosts

variable {table table' : HostTable} {cutoff cutoff' : Instant}

theorem Keyed.run (h : table.Keyed) (history : List Report) : (table.run history).Keyed := by
  induction history generalizing table with
  | nil => exact h
  | cons report history ih => exact ih ((grows_after table report).keyed h)

theorem self_run (table : HostTable) (history : List Report) :
    (table.run history).self = table.self := by
  induction history generalizing table with
  | nil => rfl
  | cons report history ih => exact (ih _).trans (grows_after table report).self

/-! ## The winner -/

/-- A host was heard of since the cutoff, and is known to be at a position. -/
def Offers (table : HostTable) (cutoff : Instant) (url : String) (position : LogId) : Prop :=
  ∃ h, table.host? url = some h ∧ cutoff ≤ h.lastSeen ∧ h.logPosition = position

/-- A host heard of since the cutoff holds more of the log than any other such host, or as much and has
the lesser address. -/
structure Best (table : HostTable) (cutoff : Instant) (b : Host) : Prop where
  listed : table.host? b.url = some b
  seen : cutoff ≤ b.lastSeen
  beats : ∀ url h, table.host? url = some h → cutoff ≤ h.lastSeen → url ≠ b.url →
    h.logPosition < b.logPosition ∨ (h.logPosition = b.logPosition ∧ b.url < url)

theorem lt_of_isLE {a b : String} (h : (compare a b).isLE = true) (hne : b ≠ a) : a < b := by
  simp only [compare, String.compare, compareOfLessAndEq] at h
  split at h
  · assumption
  · split at h
    · next heq => exact absurd heq.symm hne
    · cases h

theorem Best.unique {b b' : Host} (h : table.Best cutoff b) (h' : table.Best cutoff b') : b = b' := by
  by_cases hurl : b.url = b'.url
  · exact Option.some.inj (h.listed.symm.trans (hurl ▸ h'.listed))
  · rcases h.beats b'.url b' h'.listed h'.seen (Ne.symm hurl) with hlt | ⟨heq, hfirst⟩
    · rcases h'.beats b.url b h.listed h.seen hurl with hlt' | ⟨heq', -⟩
      · exact absurd (UInt64.lt_trans hlt hlt') (UInt64.lt_irrefl _)
      · exact absurd heq'.symm (UInt64.ne_of_lt hlt)
    · rcases h'.beats b.url b h.listed h.seen hurl with hlt' | ⟨-, hfirst'⟩
      · exact absurd heq.symm (UInt64.ne_of_lt hlt')
      · exact absurd hfirst' (String.lt_asymm hfirst)

/-- Without a winner there is no host to choose. -/
theorem winner?_eq_none_iff (hkeyed : table.Keyed) :
    table.winner? cutoff = none ↔ ∀ url h, table.host? url = some h → h.lastSeen < cutoff := by
  have hspec := winner?_spec hkeyed cutoff
  cases hwinner : table.winner? cutoff with
  | none =>
    rw [hwinner] at hspec
    exact ⟨fun _ url h hh => UInt64.not_le.mp (hspec url h hh), fun _ => rfl⟩
  | some b =>
    rw [hwinner] at hspec
    obtain ⟨hlisted, hseen, -⟩ := hspec
    exact ⟨nofun, fun hstale => absurd hseen (UInt64.not_le.mpr (hstale b.url b hlisted))⟩

theorem best_of_winner? (hkeyed : table.Keyed) {b : Host} (h : table.winner? cutoff = some b) :
    table.Best cutoff b := by
  have hspec := winner?_spec hkeyed cutoff
  rw [h] at hspec
  obtain ⟨hlisted, hseen, hbeats⟩ := hspec
  refine ⟨hlisted, hseen, fun url k hk hkseen hne => ?_⟩
  obtain ⟨hle, hties⟩ := hbeats url k hk hkseen
  rw [hkeyed url k hk] at hties
  by_cases heq : k.logPosition = b.logPosition
  · exact Or.inr ⟨heq, lt_of_isLE (hties heq) hne⟩
  · exact Or.inl (UInt64.lt_of_le_of_ne hle heq)

/-- The winner is the one host that is better than all others. -/
theorem winner?_eq_some_iff (hkeyed : table.Keyed) {b : Host} :
    table.winner? cutoff = some b ↔ table.Best cutoff b := by
  refine ⟨best_of_winner? hkeyed, fun hbest => ?_⟩
  cases hwinner : table.winner? cutoff with
  | none =>
    have hstale := (winner?_eq_none_iff hkeyed).mp hwinner b.url b hbest.listed
    exact absurd hbest.seen (UInt64.not_le.mpr hstale)
  | some b' => rw [hbest.unique (best_of_winner? hkeyed hwinner)]

/-! ## Agreement -/

/-- A host that is best in one table is best, at the same position, in a table with the same offers. -/
theorem Best.transfer (hkeyed : table'.Keyed) {b : Host} (h : table.Best cutoff b)
    (hsame : ∀ url position, table.Offers cutoff url position ↔ table'.Offers cutoff' url position) :
    ∃ b', table'.Best cutoff' b' ∧ b'.url = b.url ∧ b'.logPosition = b.logPosition := by
  obtain ⟨b', hlisted, hseen, hposition⟩ := (hsame b.url b.logPosition).mp ⟨b, h.listed, h.seen, rfl⟩
  have hurl := hkeyed b.url b' hlisted
  refine ⟨b', ⟨hurl.symm ▸ hlisted, hseen, fun url k' hk' hkseen' hne => ?_⟩, hurl, hposition⟩
  obtain ⟨k, hk, hkseen, hkposition⟩ := (hsame url k'.logPosition).mpr ⟨k', hk', hkseen', rfl⟩
  rw [← hkposition, hposition, hurl]
  exact h.beats url k hk hkseen (hurl ▸ hne)

/-- Tables with the same offers elect the same host at the same position. -/
theorem winner?_agree (hkeyed : table.Keyed) (hkeyed' : table'.Keyed)
    (hsame : ∀ url position, table.Offers cutoff url position ↔ table'.Offers cutoff' url position) :
    (table.winner? cutoff).map (fun b => (b.url, b.logPosition)) =
      (table'.winner? cutoff').map (fun b => (b.url, b.logPosition)) := by
  cases hwinner : table.winner? cutoff with
  | some b =>
    obtain ⟨b', hbest', hurl, hposition⟩ := (best_of_winner? hkeyed hwinner).transfer hkeyed' hsame
    rw [(winner?_eq_some_iff hkeyed').mpr hbest', Option.map_some, Option.map_some, hurl, hposition]
  | none =>
    cases hwinner' : table'.winner? cutoff' with
    | none => rfl
    | some b' =>
      have hsame' := fun url position => (hsame url position).symm
      obtain ⟨b, hbest, -⟩ := (best_of_winner? hkeyed' hwinner').transfer hkeyed hsame'
      rw [(winner?_eq_some_iff hkeyed).mpr hbest] at hwinner
      cases hwinner

end HostTable

/-! ## The election of a node -/

/-- The node wins the election and is not master yet. -/
def Node.Wins (n : Node) (cutoff : Instant) : Prop :=
  (∃ b, n.hosts.winner? cutoff = some b ∧ b.url = n.hosts.self) ∧ n.standing.isMaster = false

theorem Node.elect_fst (n : Node) (cutoff : Instant) :
    (n.elect cutoff).1 = n.hosts.winner? cutoff := by
  unfold elect
  cases n.hosts.winner? cutoff with
  | none => rfl
  | some b =>
    dsimp only
    split <;> rfl

theorem Node.elect_of_wins {n : Node} {cutoff : Instant} (h : n.Wins cutoff) :
    (n.elect cutoff).2 = n.promote := by
  obtain ⟨⟨b, hwinner, hself⟩, hfollower⟩ := h
  have hown : b.url = n.hosts.self ∧ (!n.standing.isMaster) = true := ⟨hself, by rw [hfollower]; rfl⟩
  simp only [elect, hwinner, if_pos hown]

theorem Node.elect_of_not_wins {n : Node} {cutoff : Instant} (h : ¬n.Wins cutoff) :
    (n.elect cutoff).2 = n := by
  unfold elect
  cases hwinner : n.hosts.winner? cutoff with
  | none => rfl
  | some b =>
    dsimp only
    split
    · next hown => exact absurd ⟨⟨b, hwinner, hown.1⟩, by simpa using hown.2⟩ h
    · rfl

/-- An election knows no past. Whatever a node was told of the hosts: it elects a host exactly if one
was heard of since the cutoff, and then the one that holds most of the log and, among equals, has the
least address. Any other node that knows the same positions of the hosts it heard of since its own
cutoff elects the same. The node itself takes over exactly if it wins and is not master yet: then it is
master under its own address and aims at nobody; otherwise the election changes nothing. -/
theorem HostTable.run_elects_best (n : Node) (position : LogId) (now : Instant)
    (history : List HostTable.Report) (cutoff : Instant) :
    let table := (HostTable.new n.url position now).run history
    let voter := { n with hosts := table }
    (table.winner? cutoff = none ↔ ∀ url h, table.host? url = some h → h.lastSeen < cutoff) ∧
    (∀ b, table.winner? cutoff = some b ↔ table.Best cutoff b) ∧
    (∀ self' position' now' history' cutoff',
      let table' := (HostTable.new self' position' now').run history'
      (∀ url p, table.Offers cutoff url p ↔ table'.Offers cutoff' url p) →
        (table.winner? cutoff).map (fun b => (b.url, b.logPosition)) =
          (table'.winner? cutoff').map fun b => (b.url, b.logPosition)) ∧
    (voter.elect cutoff).1 = table.winner? cutoff ∧
    ((∃ b, table.winner? cutoff = some b ∧ b.url = n.url) ∧ n.standing.isMaster = false →
      (voter.elect cutoff).2 = voter.restand fun s =>
        { s with isMaster := true, master := n.url, pushTarget := none }) ∧
    (¬((∃ b, table.winner? cutoff = some b ∧ b.url = n.url) ∧ n.standing.isMaster = false) →
      (voter.elect cutoff).2 = voter) := by
  intro table voter
  have hkeyed : table.Keyed := (HostTable.keyed_new n.url position now).run history
  have hself : voter.hosts.self = n.url := HostTable.self_run (HostTable.new n.url position now) history
  have hwins : voter.Wins cutoff ↔
      (∃ b, table.winner? cutoff = some b ∧ b.url = n.url) ∧ n.standing.isMaster = false := by
    rw [Node.Wins, hself]
    rfl
  refine ⟨HostTable.winner?_eq_none_iff hkeyed, fun b => HostTable.winner?_eq_some_iff hkeyed, ?_,
    voter.elect_fst cutoff, fun h => Node.elect_of_wins (hwins.mpr h),
    fun h => Node.elect_of_not_wins (fun hown => h (hwins.mp hown))⟩
  intro self' position' now' history' cutoff' table' hsame
  have hkeyed' : table'.Keyed := (HostTable.keyed_new self' position' now').run history'
  exact HostTable.winner?_agree hkeyed hkeyed' hsame

/-- Of two hosts at the same position the one with the lesser address wins, whoever was seen first; a
host that was not heard of lately does not count. -/
example : (((HostTable.new "http://c" 0 9).run [.seen "http://b" 7 5, .snapshot [⟨"http://d", 9, 3⟩,
    ⟨"http://b", 2, 4⟩, ⟨"http://a", 7, 8⟩]]).winner? 5).map (·.url) = some "http://a" := by
  decide +kernel

end LogShipping
