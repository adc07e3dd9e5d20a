import LogShipping.Proofs.Activity.Completion
import LogShipping.Proofs.Activity.StartupSteps
import LogShipping.Proofs.Log.Applying

/-!
# Pulls of a catch-up

A follower that catches up asks for the page behind its position, takes in what it is handed and looks
where it stands then. A pull is described by its call, by what the log holds afterwards and by what it
comes to (`Asker.Pulls`): the catch-up ends, it fails, or it goes on from a position that is strictly
higher. A catch-up is such pulls in a row (`Asker.CatchesUp`). Replies are any, and so is what else
happens at the node meanwhile.

The description is of the calls and of the rows, so it can be read without the program, and the runs of
the program are shown to fit it (`pulls_of_runs`, `catchesUp_of_runs`). What a page brings is said by
`Holdings.Takes`: the entries that go on from the position are taken in and those behind a gap are left.

A pull of tailing is another function, which drops what does not fit instead of failing; it shares the
page and the application with this one, and nothing else.
-/

namespace LogShipping

open Work

/-! ## Taking in a page -/

/-- What a log holds after it was handed entries, of which it took `new` in and left `left`. -/
structure Holdings.Takes (l : Holdings) (entries new left : List Entry) (l' : Holdings) : Prop where
  picks : Log.Picks l.position.toNat entries new left
  rows : l'.rows = l.rows.applyAll (new.flatMap Entry.ops)
  position : l'.position.toNat = l.position.toNat + new.length

theorem Holdings.Takes.position_le {l l' : Holdings} {entries new left : List Entry}
    (h : l.Takes entries new left l') : l.position ≤ l'.position := by
  rw [UInt64.le_iff_toNat_le, h.position]
  exact Nat.le_add_right _ _

/-- A page without entries changes nothing. -/
theorem Holdings.takes_nil (l : Holdings) : l.Takes [] [] [] l := ⟨.done _, rfl, rfl⟩

/-- A follower takes in what its position picks of a page. What is left begins behind a gap, or the store
has taken no batch. -/
theorem Node.onLog_applyReplicated {n : Node} (hfollower : n.standing.isMaster = false)
    (entries : List Entry) :
    let done := n.onLog (Log.applyReplicated entries)
    ∃ new left, n.holdings.Takes entries new left done.2.holdings ∧
      done.2.standing = n.standing ∧ done.2.settings = n.settings ∧
      (n.log.store.Answers .writeBatch → done.2.log.store.Answers .writeBatch) ∧
      ((∃ count, done.1 = .ok count ∧ left = []) ∨
        ∃ error e rest, done.1 = .error error ∧ left = e :: rest ∧
          (n.log.store.Answers .writeBatch → done.2.position.toNat + 1 < e.id.toNat)) := by
  intro done
  obtain ⟨new, left, hpicks, htook, hends⟩ := @Log.ensures_applyFrom n.log entries 0
  rw [← Log.applied_eq hfollower] at htook hends
  refine ⟨new, left, ⟨hpicks, htook.rows, htook.position⟩, htook.standing, rfl, htook.answers _, ?_⟩
  have hposition : done.2.position.toNat = n.log.position.toNat + new.length := htook.position
  have hdone : done.1 = (n.log.applied entries).1 := rfl
  rw [hdone]
  generalize (n.log.applied entries).1 = r at hends
  cases hends with
  | all => exact .inl ⟨_, rfl, rfl⟩
  | gap e rest expected hexpected hgap =>
    refine .inr ⟨_, e, rest, rfl, rfl, fun _ => ?_⟩
    rw [UInt64.lt_iff_toNat_lt] at hgap
    omega
  | failed e rest reason hnext hfails =>
    exact .inr ⟨_, e, rest, rfl, rfl, fun hanswers => (hanswers _ hfails rfl).elim⟩

/-! ## Calls for pages -/

/-- Who asks whom for pages, and of what size. -/
structure Asker where
  url : String
  peer : String
  limit : UInt32

/-- A node as one that asks a peer. -/
def Node.asker (n : Node) (peer : String) : Asker := ⟨n.url, peer, n.settings.readLogLimit⟩

/-- The call for the page behind the position, with what came of it. -/
def Asker.asking (a : Asker) (l : Holdings) (reply : Option (Except Error Message)) : Call :=
  ⟨a.peer, .readLogRequest a.url l.position a.limit, reply⟩

/-- The page in a reply, if it is one. -/
def pageOf? : Except Error Message → Option Chunk
  | .ok (.readLog _ _ _ chunk) => some chunk
  | _ => none

namespace Asker

/-- One pull from what a log holds: the calls made, what it comes to, and what the log holds then. It
goes on (`.inl`) or ends the catch-up (`.inr`), or it fails. While all batches are `written`, it fails to
take entries in only behind a gap. -/
inductive Pulls (a : Asker) (written : Prop) (l : Holdings) :
    List Call → Option (Except Error (Unit ⊕ Unit)) → Holdings → Prop where
  | waits : Pulls a written l [] none l
  | underWay {l' : Holdings} (reply : Option (Except Error Message)) (hle : l.position ≤ l'.position) :
      Pulls a written l [a.asking l reply] none l'
  | refused {reply : Except Error Message} (hpage : pageOf? reply = none) (error : Error) :
      Pulls a written l [a.asking l (some reply)] (some (.error error)) l
  | failed {reply : Except Error Message} {chunk : Chunk} {new rest : List Entry} {e : Entry}
      {l' : Holdings} (hpage : pageOf? reply = some chunk)
      (htakes : l.Takes chunk.entries new (e :: rest) l')
      (hgap : written → l'.position.toNat + 1 < e.id.toNat) (error : Error) :
      Pulls a written l [a.asking l (some reply)] (some (.error error)) l'
  | current {reply : Except Error Message} {chunk : Chunk} {new : List Entry} {l' : Holdings}
      (hpage : pageOf? reply = some chunk) (htakes : l.Takes chunk.entries new [] l')
      (hcurrent : chunk.isCurrent = true) (hreached : chunk.currid ≤ l'.position) :
      Pulls a written l [a.asking l (some reply)] (some (.ok (.inr ()))) l'
  | stuck {reply : Except Error Message} {chunk : Chunk} {new : List Entry} {l' : Holdings}
      (hpage : pageOf? reply = some chunk) (htakes : l.Takes chunk.entries new [] l')
      (hnot : ¬ (chunk.isCurrent = true ∧ chunk.currid ≤ l'.position))
      (hsame : l'.position = l.position) :
      Pulls a written l [a.asking l (some reply)]
        (some (.error (.consistency (.noProgress a.peer l.position chunk.currid)))) l'
  | raised {reply : Except Error Message} {chunk : Chunk} {new : List Entry} {l' : Holdings}
      (hpage : pageOf? reply = some chunk) (htakes : l.Takes chunk.entries new [] l')
      (hnot : ¬ (chunk.isCurrent = true ∧ chunk.currid ≤ l'.position))
      (hraised : l.position < l'.position) :
      Pulls a written l [a.asking l (some reply)] (some (.ok (.inl ()))) l'

/-- Pulls in a row, the calls that they make, how they end, if they have ended, and what the log holds
then. -/
inductive CatchesUp (a : Asker) (written : Prop) :
    Holdings → List Call → Option (Except Error Unit) → Holdings → Prop where
  | within {l l' : Holdings} {made : List Call} (h : a.Pulls written l made none l') :
      CatchesUp a written l made none l'
  | fails {l l' : Holdings} {made : List Call} {error : Error}
      (h : a.Pulls written l made (some (.error error)) l') :
      CatchesUp a written l made (some (.error error)) l'
  | ends {l l' : Holdings} {made : List Call} (h : a.Pulls written l made (some (.ok (.inr ()))) l') :
      CatchesUp a written l made (some (.ok ())) l'
  | next {l m l' : Holdings} {made later : List Call} {r : Option (Except Error Unit)}
      (h : a.Pulls written l made (some (.ok (.inl ()))) m)
      (hlater : CatchesUp a written m later r l') :
      CatchesUp a written l (made ++ later) r l'

variable {a : Asker} {written written' : Prop} {l l' : Holdings} {made : List Call}

theorem Pulls.mono {r : Option (Except Error (Unit ⊕ Unit))} (h : a.Pulls written l made r l')
    (himp : written' → written) : a.Pulls written' l made r l' := by
  cases h with
  | waits => exact .waits
  | underWay reply hle => exact .underWay reply hle
  | refused hpage error => exact .refused hpage error
  | failed hpage htakes hgap error => exact .failed hpage htakes (fun h => hgap (himp h)) error
  | current hpage htakes hcurrent hreached => exact .current hpage htakes hcurrent hreached
  | stuck hpage htakes hnot hsame => exact .stuck hpage htakes hnot hsame
  | raised hpage htakes hnot hraised => exact .raised hpage htakes hnot hraised

/-- A pull that has come to something has made one call. -/
theorem Pulls.length_eq {r : Except Error (Unit ⊕ Unit)} (h : a.Pulls written l made (some r) l') :
    made.length = 1 := by
  cases h <;> rfl

theorem CatchesUp.mono {r : Option (Except Error Unit)} (h : a.CatchesUp written l made r l')
    (himp : written' → written) : a.CatchesUp written' l made r l' := by
  induction h with
  | within h => exact .within (h.mono himp)
  | fails h => exact .fails (h.mono himp)
  | ends h => exact .ends (h.mono himp)
  | next h _ ih => exact .next (h.mono himp) ih

end Asker

/-! ## The story of a pull -/

/-- The store takes a batch at first, and whenever others have done something. -/
structure Node.Writes (n : Node) (h : List Deed) : Prop where
  first : n.log.store.Answers .writeBatch
  later : ∀ before after, .beside before after ∈ h → after.log.store.Answers .writeBatch

theorem Node.Writes.of_append {n : Node} {h later : List Deed} (hwrites : n.Writes (h ++ later)) :
    n.Writes h :=
  ⟨hwrites.first, fun before after hmem => hwrites.later before after (List.mem_append_left _ hmem)⟩

theorem Node.Writes.of_cons {n : Node} {deed : Deed} {later : List Deed}
    (hwrites : n.Writes (deed :: later)) : n.Writes later :=
  ⟨hwrites.first, fun before after hmem => hwrites.later before after (List.mem_cons_of_mem _ hmem)⟩

/-- Since `n`, a follower has made these calls, and this is what its log holds. -/
structure Node.Pursues (n : Node) (peer : String) (l : Holdings) (made : List Call) (h : List Deed)
    (m : Node) : Prop where
  follower : m.standing.isMaster = false
  asker : m.asker peer = n.asker peer
  holdings : m.holdings = l
  answers : n.Writes h → m.log.store.Answers .writeBatch
  calls : calls h = made

namespace Node.Pursues

variable {n m m' : Node} {peer : String} {l l' : Holdings} {made : List Call} {h : List Deed}

theorem begin (hfollower : n.standing.isMaster = false) (peer : String) :
    n.Pursues peer n.holdings [] [] n :=
  ⟨hfollower, rfl, rfl, fun hwrites => hwrites.first, rfl⟩

theorem steady (n : Node) (peer : String) (l : Holdings) (made : List Call) :
    Story.Steady (n.Pursues peer l made) where
  beside := by
    intro h m m' hpursues hbeside
    have halike := hbeside.alike
    refine ⟨halike.isMaster.trans hpursues.follower, ?_, ?_, fun hwrites => ?_, by
      simpa using hpursues.calls⟩
    · rw [← hpursues.asker, Node.asker, Node.asker, halike.url, halike.settings]
    · rw [← hpursues.holdings, Node.holdings, Node.holdings, halike.counters hpursues.follower,
        halike.rows hpursues.follower]
    · exact hwrites.later m m' (by simp)
  round := fun hpursues => ⟨hpursues.follower, hpursues.asker, hpursues.holdings,
    fun hwrites => hpursues.answers hwrites.of_append, by simpa using hpursues.calls⟩

/-- A step of the pull. -/
theorem work (hpursues : n.Pursues peer l made h m) (now : Instant)
    (hstanding : m'.standing = m.standing) (hsettings : m'.settings = m.settings)
    (hholdings : m'.holdings = l')
    (hanswers : m.log.store.Answers .writeBatch → m'.log.store.Answers .writeBatch) :
    n.Pursues peer l' made (h ++ [.work now m m']) m' where
  follower := by rw [hstanding, hpursues.follower]
  asker := by
    rw [← hpursues.asker]
    exact congrArg₂ (fun (s : Standing) (t : Settings) => Asker.mk s.self peer t.readLogLimit)
      hstanding hsettings
  holdings := hholdings
  answers := fun hwrites => hanswers (hpursues.answers hwrites.of_append)
  calls := by simpa using hpursues.calls

theorem look (hpursues : n.Pursues peer l made h m) (now : Instant) :
    n.Pursues peer l made (h ++ [.work now m m]) m :=
  hpursues.work now rfl rfl hpursues.holdings id

theorem call (hpursues : n.Pursues peer l [] h m) (reply : Option (Except Error Message)) :
    n.Pursues peer l [(n.asker peer).asking l reply]
      (h ++ [.call peer (.readLogRequest n.url l.position n.settings.readLogLimit) reply]) m where
  follower := hpursues.follower
  asker := hpursues.asker
  holdings := hpursues.holdings
  answers := fun hwrites => hpursues.answers hwrites.of_append
  calls := by
    rw [calls_append, hpursues.calls]
    rfl

end Node.Pursues

/-- A pull has come to this. -/
def Node.Pulled (n : Node) (peer : String) (l : Holdings) (r : Option (Except Error (Unit ⊕ Unit))) :
    Story := fun h m =>
  ∃ made l', n.Pursues peer l' made h m ∧ (n.asker peer).Pulls (n.Writes h) l made r l'

namespace Lifecycle

open Terms

/-- What is asked of a pull that has not come to a value. -/
def pulling (n : Node) (peer : String) (l : Holdings) : Terms where
  underWay := n.Pulled peer l none
  failed error := n.Pulled peer l (some (.error error))

section Pull

variable (n : Node) (peer : String) (l : Holdings)

theorem waits_pulling (l' : Holdings) {made : List Call}
    (h : ∀ written, (n.asker peer).Pulls written l made none l') :
    (pulling n peer l).Waits (n.Pursues peer l' made) :=
  ⟨Node.Pursues.steady n peer l' made, fun hpursues => ⟨made, l', hpursues, h _⟩⟩

theorem acts_pullPage :
    (pulling n peer l).Acts (pull peer l.position) (n.Pursues peer l []) fun chunk h m =>
      ∃ reply, pageOf? reply = some chunk ∧
        n.Pursues peer l [(n.asker peer).asking l (some reply)] h m := by
  have hwaits := waits_pulling n peer l l fun _ => .waits
  unfold pull
  refine Acts.bind (R := fun own h m => own = (n.url, n.settings.readLogLimit) ∧
    n.Pursues peer l [] h m) ?_ fun own => ?_
  · refine Acts.inspect hwaits fun h m now hpursues => ⟨?_, hpursues.look now⟩
    exact congrArg (fun a : Asker => (a.url, a.limit)) hpursues.asker
  refine Acts.assuming ?_
  rintro rfl
  refine Acts.bind (R := fun m h k => m.command = .readLog ∧
    n.Pursues peer l [(n.asker peer).asking l (some (.ok m))] h k) ?_ fun m => ?_
  · refine Acts.call hwaits ?_ ?_ ?_
    · exact fun h m hpursues => ⟨_, l, hpursues.call none, .underWay none (UInt64.le_refl _)⟩
    · intro h m reply error hpursues hother
      refine ⟨_, l, hpursues.call (some reply), .refused ?_ error⟩
      match reply with
      | .error _ => rfl
      | .ok answer =>
        cases answer with
        | readLog => exact (hother _ rfl rfl).elim
        | _ => rfl
    · exact fun h m answer hpursues hcommand => ⟨hcommand, hpursues.call _⟩
  · refine Acts.assuming fun hcommand => ?_
    cases m with
    | readLog url seen limit chunk =>
      have hwaits := waits_pulling n peer l l
        fun _ => .underWay (some (.ok (.readLog url seen limit chunk))) (UInt64.le_refl _)
      refine Acts.bind (R := fun _ => n.Pursues peer l
        [(n.asker peer).asking l (some (.ok (.readLog url seen limit chunk)))]) ?_ fun _ => ?_
      · exact Acts.change hwaits fun h m now hpursues =>
          hpursues.work now rfl rfl hpursues.holdings id
      · exact Acts.pure fun h m hpursues => ⟨_, rfl, hpursues⟩
    | _ => cases hcommand

variable {n peer l}

/-- A follower that holds a page has taken it in or failed to. -/
theorem acts_takePage {reply : Except Error Message} {chunk : Chunk} (hpage : pageOf? reply = some chunk) :
    (pulling n peer l).Acts (onLog (Log.applyReplicated chunk.entries))
      (n.Pursues peer l [(n.asker peer).asking l (some reply)]) fun _ h m =>
        ∃ l', (∃ new, l.Takes chunk.entries new [] l') ∧
          n.Pursues peer l' [(n.asker peer).asking l (some reply)] h m := by
  refine Acts.onLog (waits_pulling n peer l _ fun _ => .underWay _ (UInt64.le_refl _)) ?_
  intro h m now hpursues
  obtain ⟨new, left, htakes, hstanding, hsettings, hanswers, hcases⟩ :=
    m.onLog_applyReplicated hpursues.follower chunk.entries
  rw [hpursues.holdings] at htakes
  have hafter := hpursues.work now hstanding hsettings rfl hanswers
  rcases hcases with ⟨count, hr, rfl⟩ | ⟨error, e, rest, hr, rfl, hgap⟩
  · rw [hr]
    exact ⟨_, ⟨new, htakes⟩, hafter⟩
  · rw [hr]
    exact ⟨_, _, hafter, .failed hpage htakes
      (fun hwrites => hgap (hpursues.answers hwrites.of_append)) error⟩

/-- With a page taken in, a pull looks where the node stands. -/
theorem acts_judge {reply : Except Error Message} {chunk : Chunk} (hpage : pageOf? reply = some chunk)
    {l' : Holdings} {new : List Entry} (htakes : l.Takes chunk.entries new [] l') :
    (pulling n peer l).Acts (do
        let after ← inspect (·.position)
        if chunk.isCurrent && chunk.currid ≤ after then return .inr ()
        if after = l.position then throw (.consistency (.noProgress peer l.position chunk.currid))
        return .inl ())
      (n.Pursues peer l' [(n.asker peer).asking l (some reply)])
      fun (end' : Unit ⊕ Unit) => n.Pulled peer l (some (.ok end')) := by
  refine Acts.bind (R := fun after h m => after = l'.position ∧
    n.Pursues peer l' [(n.asker peer).asking l (some reply)] h m) ?_ fun after => ?_
  · refine Acts.inspect (waits_pulling n peer l _ fun _ => .underWay _ htakes.position_le) ?_
    exact fun h m now hpursues =>
      ⟨congrArg Holdings.position hpursues.holdings, hpursues.look now⟩
  refine Acts.assuming ?_
  rintro rfl
  split
  · next hreached =>
    rw [Bool.and_eq_true, decide_eq_true_iff] at hreached
    exact Acts.pure fun h m hpursues =>
      ⟨_, l', hpursues, .current hpage htakes hreached.1 hreached.2⟩
  · next hnot =>
    rw [Bool.and_eq_true, decide_eq_true_iff] at hnot
    split
    · next hsame =>
      refine Acts.bind (R := fun _ _ _ => False) (Acts.fail fun h m hpursues => ?_)
        fun _ _ _ _ _ _ himpossible => himpossible.elim
      exact ⟨_, l', hpursues, .stuck hpage htakes hnot hsame⟩
    · next hother =>
      have hraised : l.position < l'.position :=
        UInt64.lt_of_le_of_ne htakes.position_le (Ne.symm hother)
      exact Acts.pure fun h m hpursues => ⟨_, l', hpursues, .raised hpage htakes hnot hraised⟩

theorem acts_pullOnce :
    (pulling n peer l).Acts (catchUpOnce peer) (n.Pursues peer l []) fun end' =>
      n.Pulled peer l (some (.ok end')) := by
  unfold catchUpOnce
  refine Acts.bind (R := fun before h m => before = l.position ∧ n.Pursues peer l [] h m) ?_
    fun before => ?_
  · refine Acts.inspect (waits_pulling n peer l _ fun _ => .waits) ?_
    exact fun h m now hpursues =>
      ⟨congrArg Holdings.position hpursues.holdings, hpursues.look now⟩
  refine Acts.assuming ?_
  rintro rfl
  refine Acts.bind (acts_pullPage n peer l) fun chunk => ?_
  refine Acts.of_exists fun reply => Acts.assuming fun hpage => ?_
  dsimp only
  split
  · refine Acts.bind (acts_takePage hpage) fun _ => ?_
    exact Acts.of_exists fun l' => Acts.assuming fun ⟨new, htakes⟩ => acts_judge hpage htakes
  · next hempty =>
    have hnone : chunk.entries = [] := by simpa using hempty
    have htakes : l.Takes chunk.entries [] [] l := by
      rw [hnone]
      exact l.takes_nil
    exact acts_judge hpage htakes

end Pull

/-! ## Pulls in a row -/

section Rounds

variable {n n' : Node} {peer : String} {deeds : List Deed}

/-- A run of a pull is one. -/
theorem pulls_of_runs {r : Option (Except Error (Unit ⊕ Unit))}
    (hfollower : n.standing.isMaster = false) (h : (catchUpOnce peer).run.Runs n deeds r n') :
    n.Pursues peer n'.holdings (calls deeds) deeds n' ∧
      (n.asker peer).Pulls (n.Writes deeds) n.holdings (calls deeds) r n'.holdings := by
  have hpulled : n.Pulled peer n.holdings r deeds n' := by
    have hends := acts_pullOnce _ _ _ _ _ (Node.Pursues.begin hfollower peer) h
    match r with
    | none => exact hends
    | some (.error _) => exact hends
    | some (.ok _) => exact hends
  obtain ⟨made, l', hpursues, hpulls⟩ := hpulled
  obtain rfl := hpursues.holdings
  obtain rfl := hpursues.calls
  exact ⟨hpursues, hpulls⟩

/-- What stays of a node in a round stays of it as one that asks. -/
theorem catchesUp_of_rounds {start : Unit} {r : Option (Except Error Unit)}
    (hfollower : n.standing.isMaster = false)
    (h : Rounds (fun () => catchUpOnce peer) start n deeds r n') :
    (n.asker peer).CatchesUp (n.Writes deeds) n.holdings (calls deeds) r n'.holdings := by
  induction h with
  | waits => exact .within .waits
  | @beside _ n m n' deeds r hbeside hrest ih =>
    have hbegin := (Node.Pursues.steady n peer _ _).beside (.begin hfollower peer) hbeside
    rw [← hbegin.asker, ← hbegin.holdings]
    refine (ih hbegin.follower).mono fun hwrites => ⟨hwrites.later n m List.mem_cons_self, ?_⟩
    exact hwrites.of_cons.later
  | within hround =>
    exact .within ((pulls_of_runs hfollower hround).2.mono Node.Writes.of_cons)
  | fails hround =>
    exact .fails ((pulls_of_runs hfollower hround).2.mono Node.Writes.of_cons)
  | ends hround =>
    exact .ends ((pulls_of_runs hfollower hround).2.mono Node.Writes.of_cons)
  | @next _ _ n m n' first later r hround hrest ih =>
    obtain ⟨hpursues, hpulls⟩ := pulls_of_runs hfollower hround
    have hlater := ih hpursues.follower
    rw [hpursues.asker] at hlater
    have hcalls : calls (.round :: (first ++ later)) = calls first ++ calls later := calls_append _ _
    rw [hcalls]
    refine .next (hpulls.mono fun hwrites => hwrites.of_cons.of_append) (hlater.mono fun hwrites => ?_)
    exact ⟨hpursues.answers hwrites.of_cons.of_append, fun before after hmem =>
      hwrites.of_cons.later before after (List.mem_append_right _ hmem)⟩

/-- A run of a catch-up is pulls in a row. -/
theorem catchesUp_of_runs {r : Option (Except Error Unit)} (hfollower : n.standing.isMaster = false)
    (h : (catchUp peer).run.Runs n deeds r n') :
    (n.asker peer).CatchesUp (n.Writes deeds) n.holdings (calls deeds) r n'.holdings :=
  catchesUp_of_rounds hfollower (rounds_of_runs h)

theorem within_catchUpOnce (peer : String) : (catchUpOnce peer).Within 6 := by
  have hjudge : ∀ (before : LogId) (chunk : Chunk), Work.Within (do
      let after ← inspect (·.position)
      if chunk.isCurrent && chunk.currid ≤ after then return .inr ()
      if after = before then throw (.consistency (.noProgress peer before chunk.currid))
      return (.inl () : Unit ⊕ Unit)) 1 := by
    intro before chunk
    refine Work.Within.bind 0 (.inspect _) fun after => ?_
    split
    · exact .pure _
    · split
      · exact Work.Within.bind 0 (.fail _) fun _ => .pure _
      · exact .pure _
  have hpull : ∀ before, (pull peer before).Within 3 := by
    intro before
    refine Work.Within.bind 2 (.inspect _) fun own => ?_
    refine Work.Within.bind 1 (.call peer _) fun m => ?_
    cases m with
    | readLog url seen limit chunk => exact Work.Within.bind 0 (.change _) fun _ => .pure _
    | _ => exact Work.Within.mono (.fail _) (Nat.zero_le _)
  unfold catchUpOnce
  refine Work.Within.bind 5 (.inspect _) fun before => ?_
  refine Work.Within.bind 2 (hpull before) fun chunk => ?_
  dsimp only
  split
  · exact Work.Within.bind 1 (.onLog _) fun _ => hjudge before chunk
  · exact (hjudge before chunk).mono (by decide)

/-- A catch-up takes seven deeds of its own for a call at most, and seven more at its end. -/
theorem ownDeeds_catchUp_le {r : Option (Except Error Unit)} (hfollower : n.standing.isMaster = false)
    (h : (catchUp peer).run.Runs n deeds r n') : ownDeeds deeds ≤ 7 * ((calls deeds).length + 1) := by
  have hround : ∀ {n n' : Node} {deeds : List Deed} {r : Option (Except Error (Unit ⊕ Unit))},
      (catchUpOnce peer).run.Runs n deeds r n' → ownDeeds (.round :: deeds) ≤ 7 := by
    intro n n' deeds r hround
    rw [ownDeeds_cons rfl]
    exact Nat.succ_le_succ (hround.ownDeeds_le (within_catchUpOnce peer))
  replace h : Rounds (fun () => catchUpOnce peer) () n deeds r n' := rounds_of_runs h
  generalize () = start at h
  induction h with
  | waits => exact Nat.zero_le _
  | beside hbeside _ ih =>
    rw [ownDeeds_beside]
    exact ih (hbeside.alike.isMaster.trans hfollower)
  | within h | fails h | ends h => exact (hround h).trans (by omega)
  | @next _ _ n m n' first later r hfirst hrest ih =>
    obtain ⟨hpursues, hpulls⟩ := pulls_of_runs hfollower hfirst
    have hone := hpulls.length_eq
    have hcalls : calls (.round :: (first ++ later)) = calls first ++ calls later := calls_append _ _
    have hle := hround hfirst
    have hmore := ih hpursues.follower
    rw [← List.cons_append, ownDeeds_append, List.cons_append, hcalls, List.length_append, hone]
    omega

end Rounds

end Lifecycle

end LogShipping
