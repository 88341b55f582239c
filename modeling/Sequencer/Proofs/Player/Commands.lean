import Sequencer.Player.Basic
import Sequencer.Proofs.Playback.Adequacy
import Sequencer.Proofs.Playback.History

/-!
# Sequencer.Proofs.Player.Commands

What a host can do to a player, and what that comes to. `Command` lists the calls of a host, and
`Reachable` the players that they lead to.

Every call is made up of a few moves (`Move`): edits of what lies outside of the run, a tick and a
stop; `play` and `restart` may begin a run at the end of them (`obey_cases`). A property of players
that all of this keeps is an `Invariant`, and holds of every reachable player
(`Invariant.of_reachable`). No later proof opens `update` or its loop.
-/

namespace Sequencer

open Relation

variable {H : Host}

/-! ### Notices of a reconciliation -/

namespace Bindings

mutual

theorem opensRun_traversal : ∀ (s : Sequence H) (nested : NestedId) (path : List SequenceId)
    (t : Traversal H), (∀ n ∈ t.notices, n.opensRun = false) →
      ∀ n ∈ (Traversal.visit s nested path t).notices, n.opensRun = false
  | ⟨id, name, parallel, nodes, registry⟩, nested, path, t, ht => by
      rw [Traversal.visit]
      split
      · simp only [List.mem_append, List.mem_singleton]
        rintro n (hn | rfl)
        · exact ht n hn
        · rfl
      · refine opensRun_traversalNodes nodes _ _ ?_
        unfold Traversal.add
        split <;> exact ht
termination_by structural s => s

theorem opensRun_traversalNodes : ∀ (nodes : List (SequenceEntry H)) (path : List SequenceId)
    (t : Traversal H), (∀ n ∈ t.notices, n.opensRun = false) →
      ∀ n ∈ (Traversal.visitNodes nodes path t).notices, n.opensRun = false
  | [], _, _, ht => ht
  | ⟨_, _, node⟩ :: rest, path, t, ht => by
      cases node with
      | nested s identity loops =>
          exact opensRun_traversalNodes rest path _ (opensRun_traversal s identity path t ht)
      | host n =>
          match n with
          | ⟨_, _, _, _, _, none⟩ => exact opensRun_traversalNodes rest path t ht
          | ⟨_, _, _, _, _, some (identity, s)⟩ =>
              exact opensRun_traversalNodes rest path _ (opensRun_traversal s identity path t ht)
      | _ => exact opensRun_traversalNodes rest path t ht
termination_by structural nodes => nodes

end

theorem opensRun_slots (name : String) (nested : NestedId) (registry : Registry) (p : SlotPass)
    (hp : ∀ n ∈ p.notices, n.opensRun = false) :
    ∀ n ∈ (registry.foldl (SlotPass.provide name nested) p).notices, n.opensRun = false := by
  induction registry generalizing p with
  | nil => exact hp
  | cons d rest ih =>
      refine ih _ ?_
      unfold SlotPass.provide
      split
      · exact hp
      · split
        · exact hp
        · simp only [List.mem_append, List.mem_singleton]
          rintro n (hn | rfl)
          · exact hp n hn
          · rfl

theorem opensRun_groups (reached : List (Reached H)) (p : GroupPass)
    (hp : ∀ n ∈ p.notices, n.opensRun = false) :
    ∀ n ∈ (reached.foldl GroupPass.provide p).notices, n.opensRun = false := by
  induction reached generalizing p with
  | nil => exact hp
  | cons r rest ih =>
      refine ih _ ?_
      unfold GroupPass.provide
      split
      · exact hp
      · intro n hn
        rcases List.mem_append.mp hn with hn | hn
        · exact hp n hn
        · exact opensRun_slots _ _ _ _ (by simp) n hn

/-- Bindings may be reconciled during a run. Nothing in the log of that looks like a new run. -/
theorem opensRun_reconcile (b : Bindings) (root : Sequence H) :
    ∀ n ∈ (b.reconcile root).notices, n.opensRun = false := by
  intro n hn
  simp only [reconcile, List.mem_append, or_assoc] at hn
  rcases hn with hn | hn | hn
  · exact opensRun_traversal root .root [] {} (by simp) n hn
  · exact opensRun_groups _ _ (by simp) n hn
  · split at hn
    · simp at hn
    · obtain rfl := List.mem_singleton.mp hn
      rfl

end Bindings

namespace Player

/-! ### Moves -/

/-- `q` is `p` after edits of what lies outside of the run. -/
structure Edits (p q : Player H) : Prop where
  phase : q.phase = p.phase
  run : q.run = p.run
  stopRequested : q.playback.stopRequested = p.playback.stopRequested
  nextTicket : q.playback.nextTicket = p.playback.nextTicket
  history : ∃ events, q.playback.history = events ++ p.playback.history ∧
    ∀ e ∈ events, e.isAside = true

namespace Edits

variable {p q r : Player H}

theorem refl (p : Player H) : p.Edits p := ⟨rfl, rfl, rfl, rfl, [], rfl, by simp⟩

theorem trans (h : p.Edits q) (h' : q.Edits r) : p.Edits r := by
  obtain ⟨events, heq, haside⟩ := h.history
  obtain ⟨events', heq', haside'⟩ := h'.history
  refine ⟨h'.phase.trans h.phase, h'.run.trans h.run, h'.stopRequested.trans h.stopRequested,
    h'.nextTicket.trans h.nextTicket, events' ++ events, ?_, ?_⟩
  · rw [heq', heq, List.append_assoc]
  · exact List.forall_mem_append.mpr ⟨haside', haside⟩

theorem record (p : Player H) {e : Event H} (he : e.isAside = true) : p.Edits (p.record e) :=
  ⟨rfl, rfl, rfl, rfl, [e], rfl, by simpa using he⟩

/-- An edit that leaves no trace in the history. -/
theorem silent (hphase : q.phase = p.phase) (hrun : q.run = p.run)
    (hstop : q.playback.stopRequested = p.playback.stopRequested)
    (hticket : q.playback.nextTicket = p.playback.nextTicket)
    (hhistory : q.playback.history = p.playback.history) : p.Edits q :=
  ⟨hphase, hrun, hstop, hticket, [], hhistory, by simp⟩

theorem noticeAll (p : Player H) (notices : List Notice)
    (h : ∀ n ∈ notices, n.opensRun = false) :
    p.Edits { p with playback := p.playback.notice notices } := by
  induction notices generalizing p with
  | nil => exact refl p
  | cons n rest ih =>
      have hn : (Event.noticed (H := H) n).isAside = true := by
        simp [Event.isAside, h n List.mem_cons_self]
      exact (record p hn).trans (ih _ fun m hm => h m (List.mem_cons_of_mem n hm))

theorem reconcileBindings (p : Player H) : p.Edits p.reconcileBindings.2 := by
  let outcome := p.playback.bindings.reconcile p.sequence
  let bound : Player H := { p with playback := { p.playback with bindings := outcome.bindings } }
  have hbound : p.Edits bound := silent rfl rfl rfl rfl rfl
  have hnotices : ∀ n ∈ outcome.notices, n.opensRun = false :=
    Bindings.opensRun_reconcile p.playback.bindings p.sequence
  exact hbound.trans (noticeAll bound outcome.notices hnotices)

theorem setBindings (p : Player H) (bindings : Bindings) : p.Edits (p.setBindings bindings).2 := by
  let bound : Player H := { p with playback := { p.playback with bindings } }
  have hbound : p.Edits bound := silent rfl rfl rfl rfl rfl
  exact hbound.trans (reconcileBindings bound)

theorem setSequence (p : Player H) (sequence : Sequence H) :
    p.Edits (Player.reconcileBindings { p with sequence }).2 := by
  have hreplaced : p.Edits { p with sequence } := silent rfl rfl rfl rfl rfl
  exact hreplaced.trans (reconcileBindings _)

end Edits

theorem stretch_reconcileBindings (p : Player H) :
    Playback.Stretch
      { p.playback with bindings := (p.playback.bindings.reconcile p.sequence).bindings } []
      p.reconcileBindings.2.playback :=
  .recordAll _ (fun _ => rfl) (fun _ => rfl) _

theorem clock_reconcileBindings (p : Player H) :
    p.reconcileBindings.2.playback.clock = p.playback.clock :=
  (stretch_reconcileBindings p).clock

theorem bindings_reconcileBindings (p : Player H) :
    p.reconcileBindings.2.playback.bindings
      = (p.playback.bindings.reconcile p.sequence).bindings :=
  (stretch_reconcileBindings p).bindings

/-- The player at the start of a run, in front of the first step. -/
def started (p : Player H) : Player H :=
  { p with
    playback := { p.playback with clock := .zero, stopRequested := false, nextTicket := 0 }
    backlog := 0.0
    run := some (.new p.sequence .root)
    phase := .running }.record (.noticed (.playing p.sequence.name))

/-- The player when time has passed, in front of the next step. -/
def later (p : Player H) (delta : Float) : Player H :=
  { p with playback := { p.playback with clock := p.playback.clock.advance delta } }

/-- What follows a step of the run: a stop if one was requested, else the end if the run is done. -/
def conclude (p : Player H) (progress : Progress) : Player H :=
  if p.playback.stopRequested then (p.record (.noticed (.stopRequested p.sequence.name))).stop
  else if progress.isDone then p.finish
  else p

theorem conclude_cases (p : Player H) (progress : Progress) :
    p.playback.stopRequested = true ∧
        p.conclude progress = (p.record (.noticed (.stopRequested p.sequence.name))).stop ∨
      p.playback.stopRequested = false ∧ progress = .done ∧ p.conclude progress = p.finish ∨
      p.playback.stopRequested = false ∧ progress = .pending ∧ p.conclude progress = p := by
  unfold conclude
  cases p.playback.stopRequested <;> cases progress <;> simp [Progress.isDone]

theorem play_eq (fuel : Nat) (p : Player H) :
    p.play fuel = if p.isPlaying then some p else p.started.step fuel := rfl

theorem tick_eq (fuel : Nat) (delta : Float) (p : Player H) :
    p.tick fuel delta = if p.isPlaying then (p.later delta).step fuel else some p := rfl

theorem edits_later (p : Player H) (delta : Float) : p.Edits (p.later delta) :=
  .silent rfl rfl rfl rfl rfl

/-- A step within a bound, as one of the run and its conclusion. -/
theorem step_eq (fuel : Nat) (p : Player H) :
    p.step fuel = match p.run with
      | none => some p
      | some run => (run.step (Task.poll fuel) fuel p.playback).map fun r =>
          conclude { p with run := some r.2.1, playback := r.2.2 } r.1 := by
  unfold step conclude
  rcases p.run with _ | run
  · rfl
  dsimp only
  rcases run.step (Task.poll fuel) fuel p.playback with _ | ⟨progress, run', playback⟩
  · rfl
  · simp only [Option.map_some, apply_ite some]

/-- A step is one of the run and its conclusion. Without a run it does nothing. -/
theorem step_cases {p p' : Player H} {fuel : Nat} (h : p.step fuel = some p') :
    p.run = none ∧ p' = p ∨ ∃ run progress run' playback, p.run = some run ∧
      (Job.step run p.playback progress run' playback).Returns ∧
      p' = conclude { p with run := some run', playback } progress := by
  rw [step_eq] at h
  cases hrun : p.run with
  | none =>
      simp only [hrun] at h
      exact .inl ⟨rfl, (Option.some.inj h).symm⟩
  | some run =>
      simp only [hrun] at h
      obtain ⟨⟨progress, run', playback⟩, hstep, rfl⟩ := Option.map_eq_some_iff.mp h
      exact .inr ⟨run, progress, run', playback, rfl, .of_step hstep, rfl⟩

/-- What the run comes to, the step of the player comes to from some bound on. -/
theorem step_of_returns {p : Player H} {run run' : SequenceRun H} {progress : Progress}
    {playback : Playback H} (hrun : p.run = some run)
    (h : (Job.step run p.playback progress run' playback).Returns) :
    ∃ bound, ∀ fuel, bound ≤ fuel →
      p.step fuel = some (conclude { p with run := some run', playback } progress) := by
  obtain ⟨bound, hcomputes⟩ := h.computes
  refine ⟨bound, fun fuel hfuel => ?_⟩
  rw [step_eq]
  simp only [hrun, hcomputes fuel hfuel, Option.map_some]

/-! ### Commands -/

/-- What a host may ask of a player. -/
inductive Command (H : Host)
  | play
  | stop
  | restart
  | tick (delta : Float)
  | update (delta : Float)
  | setSequence (sequence : Sequence H)
  | setBindings (bindings : Bindings)
  | reconcileBindings
  | setParameter (name : String) (value : Value)
  /-- Any edit of the parameters, given those that are there. -/
  | editParameters (edit : Parameters → Parameters)
  | setOverride (o : Occurrence) (index : OverrideIndex) (value : Value)
  | setEnabled (o : Occurrence) (index : OverrideIndex) (enabled : Bool)
  /-- Any edit of the settings, given those that are there. -/
  | editSettings (edit : Settings → Settings)

/-- The player after a command; nothing if a step does not come to an end within the bound. -/
def obey (fuel : Nat) (p : Player H) : Command H → Option (Player H)
  | .play => p.play fuel
  | .stop => some p.stop
  | .restart => p.restart fuel
  | .tick delta => p.tick fuel delta
  | .update delta => (p.update fuel delta).map (·.2)
  | .setSequence sequence => some (p.setSequence sequence)
  | .setBindings bindings => some (p.setBindings bindings).2
  | .reconcileBindings => some p.reconcileBindings.2
  | .setParameter name value => some (p.setParameter name value)
  | .editParameters edit =>
    some { p with playback := { p.playback with parameters := edit p.playback.parameters } }
  | .setOverride o index value => some (p.setOverride o index value).2
  | .setEnabled o index enabled => some (p.setEnabled o index enabled).2
  | .editSettings edit => some { p with settings := edit p.settings }

/-- The players that commands lead to. An update takes its steps on a player whose backlog it has
changed, so the last rule lets the backlog be anything. -/
inductive Reachable : Player H → Prop
  | new (sequence : Sequence H) (settings : Settings) : Reachable (new sequence settings)
  | obey {p p' : Player H} {fuel : Nat} {command : Command H} :
      Reachable p → p.obey fuel command = some p' → Reachable p'
  | amidUpdate {p : Player H} (backlog : Float) : Reachable p → Reachable { p with backlog }

/-- The player after one command after the other. -/
def obeyAll (fuel : Nat) : List (Command H) → Player H → Option (Player H)
  | [], p => some p
  | command :: rest, p => (p.obey fuel command).bind (obeyAll fuel rest)

theorem Reachable.obeyAll {p p' : Player H} {fuel : Nat} {commands : List (Command H)}
    (hp : p.Reachable) (h : p.obeyAll fuel commands = some p') : p'.Reachable := by
  induction commands generalizing p with
  | nil =>
      cases h
      exact hp
  | cons command rest ih =>
      obtain ⟨q, hobey, hrest⟩ := Option.bind_eq_some_iff.mp h
      exact ih (.obey hp hobey) hrest

/-- The step inside of `play` or of a tick of the player `p` begins with `q`. -/
inductive Begins (p : Player H) : Player H → Prop
  | play : p.isPlaying = false → Begins p p.started
  | tick (delta : Float) : p.isPlaying = true → Begins p (p.later delta)

/-! ### What a command comes to -/

end Player

/-- What an edit of a slot leaves, whether it is refused or not. -/
inductive Bindings.Amends (b : Bindings) : Bindings → Prop
  | override (o : Occurrence) (index : OverrideIndex) (value : Value) :
      Amends b (b.setOverride o index value).2
  | enable (o : Occurrence) (index : OverrideIndex) (enabled : Bool) :
      Amends b (b.setEnabled o index enabled).2

namespace Player

/-- One move of a command, other than the start of a run. -/
inductive Move : Player H → Player H → Prop
  /-- What lies outside of the run is edited; the clock, the sequence and its bindings stay. -/
  | aside {p q : Player H} : p.Edits q → q.playback.clock = p.playback.clock →
      q.sequence = p.sequence → q.playback.bindings = p.playback.bindings → Move p q
  /-- The bindings are replaced, and brought in line with the sequence. -/
  | bind (p : Player H) (bindings : Bindings) : Move p (p.setBindings bindings).2
  /-- A slot is edited. -/
  | amend (p : Player H) {bindings : Bindings} : p.playback.bindings.Amends bindings →
      Move p { p with playback := { p.playback with bindings } }
  /-- Without playback another sequence takes the place of the old one. -/
  | recast (p : Player H) (sequence : Sequence H) : p.isPlaying = false →
      Move p (reconcileBindings { p with sequence }).2
  /-- During playback time passes, and the run takes a step. -/
  | tick {p q : Player H} (delta : Float) {fuel : Nat} : p.isPlaying = true →
      (p.later delta).step fuel = some q → Move p q
  /-- Playback is cancelled. -/
  | stop {p : Player H} : p.isPlaying = true → Move p p.stop

/-- Moves of a command. -/
abbrev Moves : Player H → Player H → Prop := ReflTransGen Move

theorem stop_of_idle {p : Player H} (h : p.isPlaying = false) : p.stop = p := by
  unfold stop
  rw [h]
  rfl

theorem isPlaying_stop (p : Player H) : p.stop.isPlaying = false := by
  cases h : p.isPlaying with
  | false => rw [stop_of_idle h, h]
  | true =>
      unfold stop
      rw [h]
      rfl

section Moves

variable {p p' : Player H} {fuel : Nat}

theorem moves_stop (p : Player H) : p.Moves p.stop := by
  cases h : p.isPlaying with
  | false => rw [stop_of_idle h]
  | true => exact .single (.stop h)

theorem moves_tick {delta : Float} (h : p.tick fuel delta = some p') : p.Moves p' := by
  rw [tick_eq] at h
  split at h
  · rename_i hplaying
    exact .single (.tick delta hplaying h)
  · cases h
    exact .refl

theorem moves_backlog (p : Player H) (backlog : Float) : p.Moves { p with backlog } :=
  .single (.aside (.silent rfl rfl rfl rfl rfl) rfl rfl rfl)

/-- The loop of an update, step after step. -/
theorem moves_drain {timestep zero : Float} {steps allowed : Nat} {d : Drained (Player H) Float}
    (h : (stepped fuel timestep).drain timestep zero steps allowed p = some d) :
    p.Moves d.state := by
  induction allowed generalizing p steps with
  | zero =>
      cases h
      exact moves_backlog p zero
  | succ allowed ih =>
      rw [Stepped.drain] at h
      split at h
      · split at h
        · cases h
        · rename_i htick
          exact ((moves_backlog p (p.backlog - timestep)).trans (moves_tick htick)).trans (ih h)
      · cases h
        exact .refl

theorem moves_update {delta : Float} {steps : Nat} (h : p.update fuel delta = some (steps, p')) :
    p.Moves p' := by
  unfold update at h
  split at h
  · dsimp only at h
    split at h
    · obtain ⟨q, htick, heq⟩ := Option.map_eq_some_iff.mp h
      cases heq
      exact moves_tick htick
    · have hcredited := moves_backlog p (p.backlog + p.settings.scaledDelta delta)
      split at h
      · cases h
      · rename_i hdrain
        cases h
        exact hcredited.trans (moves_drain hdrain)
      · rename_i hdrain
        cases h
        exact (hcredited.trans (moves_drain hdrain)).tail (.aside (.record _ rfl) rfl rfl rfl)
  · cases h
    exact .refl

/-- A command that is neither `play` nor `restart` is made up of moves. -/
theorem moves_obey {command : Command H} (hplay : command ≠ .play) (hrestart : command ≠ .restart)
    (h : p.obey fuel command = some p') : p.Moves p' := by
  cases command with
  | play => exact absurd rfl hplay
  | restart => exact absurd rfl hrestart
  | stop =>
      cases h
      exact moves_stop p
  | tick delta => exact moves_tick h
  | update delta =>
      obtain ⟨⟨steps, q⟩, hupdate, rfl⟩ := Option.map_eq_some_iff.mp h
      exact moves_update hupdate
  | setSequence sequence =>
      cases h
      exact (moves_stop p).tail (.recast p.stop sequence (isPlaying_stop p))
  | setBindings bindings =>
      cases h
      exact .single (.bind p bindings)
  | reconcileBindings =>
      cases h
      exact .single (.bind p p.playback.bindings)
  | setParameter name value | editParameters edit | editSettings edit =>
      cases h
      exact .single (.aside (.silent rfl rfl rfl rfl rfl) rfl rfl rfl)
  | setOverride o index value =>
      cases h
      exact .single (.amend p (.override o index value))
  | setEnabled o index enabled =>
      cases h
      exact .single (.amend p (.enable o index enabled))

/-- `restart` gives up the run, if there is one, and begins another. -/
theorem restart_cases (h : p.restart fuel = some p') :
    ∃ q, p.Moves q ∧ q.isPlaying = false ∧ q.started.step fuel = some p' := by
  let asked := p.record (.noticed (.restarting p.sequence.name))
  have hasked : p.Move asked := .aside (.record p rfl) rfl rfl rfl
  have hidle : asked.stop.isPlaying = false := isPlaying_stop asked
  refine ⟨asked.stop, (ReflTransGen.single hasked).trans (moves_stop asked), hidle, ?_⟩
  rwa [restart, play_eq, hidle, if_neg Bool.false_ne_true] at h

/-- **What a command comes to.** It is made up of moves, and at its end `play` and `restart` may
begin a run, which takes its first step. -/
theorem obey_cases {command : Command H} (h : p.obey fuel command = some p') :
    p.Moves p' ∨ ∃ q, p.Moves q ∧ q.isPlaying = false ∧ q.started.step fuel = some p' := by
  by_cases hplay : command = .play
  · subst hplay
    change p.play fuel = some p' at h
    rw [play_eq] at h
    split at h
    · cases h
      exact .inl .refl
    · rename_i hidle
      exact .inr ⟨p, .refl, Bool.eq_false_iff.mpr hidle, h⟩
  · by_cases hrestart : command = .restart
    · subst hrestart
      exact .inr (restart_cases h)
    · exact .inl (moves_obey hplay hrestart h)

end Moves

/-! ### Invariants -/

/-- What new players have, and what moves and the first step of a run keep, every reachable player
has. -/
theorem Reachable.of_moves {P : Player H → Prop} {p : Player H}
    (hnew : ∀ sequence settings, P (Player.new sequence settings))
    (hmove : ∀ {p q}, P p → p.Move q → P q)
    (hbegin : ∀ {p q fuel}, P p → p.isPlaying = false → p.started.step fuel = some q → P q)
    (hp : p.Reachable) : P p := by
  have hmoves : ∀ {p q : Player H}, P p → p.Moves q → P q := by
    intro p q hp h
    induction h with
    | refl => exact hp
    | tail _ h ih => exact hmove ih h
  induction hp with
  | new sequence settings => exact hnew sequence settings
  | obey _ hobey ih =>
      rcases obey_cases hobey with h | ⟨q, h, hidle, hstep⟩
      · exact hmoves ih h
      · exact hbegin (hmoves ih h) hidle hstep
  | amidUpdate backlog _ ih => exact hmoves ih (moves_backlog _ backlog)

/-- A property of players that every move keeps. -/
structure Invariant (P : Player H → Prop) : Prop where
  fresh : ∀ sequence settings, P { sequence, settings }
  edits : ∀ {p q}, P p → p.Edits q → P q
  started : ∀ {p}, P p → p.isPlaying = false → P p.started
  step : ∀ {p p' fuel}, P p → p.step fuel = some p' → P p'
  stop : ∀ {p}, P p → P p.stop

namespace Invariant

variable {P : Player H → Prop} {p p' : Player H} {fuel : Nat}

theorem move (h : Invariant P) (hp : P p) (hmove : p.Move p') : P p' := by
  cases hmove with
  | aside hedits => exact h.edits hp hedits
  | bind bindings => exact h.edits hp (.setBindings p bindings)
  | amend => exact h.edits hp (.silent rfl rfl rfl rfl rfl)
  | recast sequence => exact h.edits hp (.setSequence p sequence)
  | tick delta _ hstep => exact h.step (h.edits hp (edits_later p delta)) hstep
  | stop => exact h.stop hp

theorem moves (h : Invariant P) (hp : P p) (hmoves : p.Moves p') : P p' := by
  induction hmoves with
  | refl => exact hp
  | tail _ hmove ih => exact h.move ih hmove

/-- **Invariants.** What every move keeps, every reachable player has. -/
theorem of_reachable (h : Invariant P) (hp : p.Reachable) : P p := by
  refine hp.of_moves (fun sequence settings => ?_) h.move fun hp hidle hstep => ?_
  · exact h.edits (h.fresh sequence settings) (.reconcileBindings _)
  · exact h.step (h.started hp hidle) hstep

end Invariant

end Player

end Sequencer
