import Sequencer.Proofs.Player.Tickets

/-!
# Sequencer.Proofs.Player.LifeCycle

The life cycle of a player, as its history tells it.

`LifeCycle history phase` says that the history is one that a player in this phase may have: runs
begin and end in turn, each with one word to the host, and nodes are invoked within a run only.
Every move of a player keeps it (`invariant_lifeCycle`), and what is said of the runs is read off
the history (`LifeCycle.begun_eq`, `LifeCycle.exists_runs`). `Moves.idles` says how little can
happen without playback. The theorem is `life_cycle`.
-/

namespace Sequencer

open Relation

variable {H : Host}

/-! ### Histories -/

namespace Event

/-- The phase that a run leaves behind, in the event that tells the host of its end. -/
def outcome? : Event H → Option Phase
  | finished => some .idle
  | stopped _ => some .stopped
  | _ => none

theorem outcome?_of_not_isSignal {e : Event H} (h : e.isSignal = false) : e.outcome? = none := by
  cases e <;> simp_all [isSignal, outcome?]

/-- A run ends in one of two ways. -/
theorem length_outcomes (history : List (Event H)) :
    (history.filterMap outcome?).length
      = (history.filterMap outcome?).count .idle + (history.filterMap outcome?).count .stopped := by
  rw [List.length_eq_countP_add_countP (· == .idle), List.count, List.count]
  congr 1
  refine List.countP_congr fun phase hphase => ?_
  obtain ⟨e, -, he⟩ := List.mem_filterMap.mp hphase
  cases e <;> cases he <;> decide

theorem opensRun_of_isClosing {e : Event H} (h : e.isClosing = true) : e.opensRun = false := by
  cases e <;> simp_all [isClosing, opensRun]

end Event

theorem length_splitOnP {α : Type} (p : α → Bool) (xs : List α) :
    (xs.splitOnP p).length = xs.countP p + 1 := by
  induction xs with
  | nil => rfl
  | cons x xs ih =>
      rw [List.splitOnP_cons_eq_if_modifyHead]
      cases hx : p x with
      | true => simp [ih, hx]
      | false => simp [ih, hx]

/-- The history, newest first, of a player in a phase. -/
inductive LifeCycle : List (Event H) → Phase → Prop
  | new : LifeCycle [] .idle
  /-- A run begins unless there is one. -/
  | play {history : List (Event H)} {phase : Phase} (name : String) :
      LifeCycle history phase → phase ≠ .running →
      LifeCycle (.noticed (.playing name) :: history) .running
  /-- What belongs to a run happens within it. -/
  | within {history : List (Event H)} {e : Event H} :
      LifeCycle history .running → e.opensRun = false → e.isSignal = false →
      LifeCycle (e :: history) .running
  /-- What lies beside the runs happens at any time. -/
  | aside {history : List (Event H)} {phase : Phase} {e : Event H} :
      LifeCycle history phase → e.isAside = true → LifeCycle (e :: history) phase
  | finish {history : List (Event H)} :
      LifeCycle history .running → LifeCycle (.finished :: history) .idle
  /-- Whoever is told of a stop sees a stopped player without a run. -/
  | stop {history : List (Event H)} {status : Status} :
      LifeCycle history .running → status.phase = .stopped → status.index = none →
      LifeCycle (.stopped status :: history) .stopped

namespace LifeCycle

variable {history events : List (Event H)} {phase : Phase}

theorem withinAll (h : LifeCycle history .running)
    (hinner : ∀ e ∈ events, e.opensRun = false ∧ e.isSignal = false) :
    LifeCycle (events ++ history) .running := by
  induction events with
  | nil => exact h
  | cons e events ih =>
      obtain ⟨he, hevents⟩ := List.forall_mem_cons.mp hinner
      exact .within (ih hevents) he.1 he.2

theorem asideAll (h : LifeCycle history phase) (haside : ∀ e ∈ events, e.isAside = true) :
    LifeCycle (events ++ history) phase := by
  induction events with
  | nil => exact h
  | cons e events ih =>
      obtain ⟨he, hevents⟩ := List.forall_mem_cons.mp haside
      exact .aside (ih hevents) he

theorem of_cons {e : Event H} (h : LifeCycle (e :: history) phase) :
    ∃ phase', LifeCycle history phase' := by
  cases h with
  | play _ h _ | within h _ _ | aside h _ | finish h | stop h _ _ => exact ⟨_, h⟩

/-- The history of an earlier moment. -/
theorem of_append (h : LifeCycle (events ++ history) phase) :
    ∃ phase', LifeCycle history phase' := by
  induction events generalizing phase with
  | nil => exact ⟨phase, h⟩
  | cons e events ih =>
      obtain ⟨phase', h'⟩ := h.of_cons
      exact ih h'

/-- A node is invoked within a run. -/
theorem of_invoked {i : Invocation H} (h : LifeCycle (.invoked i :: history) phase) :
    LifeCycle history .running := by
  cases h with
  | within hbefore => exact hbefore
  | aside _ haside => cases haside

theorem of_stopped (h : LifeCycle history phase) {status : Status}
    (hmem : .stopped status ∈ history) : status.phase = .stopped ∧ status.index = none := by
  induction h with
  | new => cases hmem
  | play _ _ _ ih => exact ih (by simpa using hmem)
  | within _ _ hsignal ih | aside _ hsignal ih =>
      rcases List.mem_cons.mp hmem with rfl | hmem
      · cases hsignal
      · exact ih hmem
  | finish _ ih => exact ih (by simpa using hmem)
  | stop _ hphase hindex ih =>
      rcases List.mem_cons.mp hmem with heq | hmem
      · cases heq
        exact ⟨hphase, hindex⟩
      · exact ih hmem

/-- **The balance of runs.** Each run that was begun has come to one end, but the one under way. -/
theorem begun_eq (h : LifeCycle history phase) :
    history.countP Event.opensRun
      = (history.filterMap Event.outcome?).length + if phase = .running then 1 else 0 := by
  induction h with
  | new => rfl
  | play name _ hphase ih =>
      rw [if_neg hphase] at ih
      rw [List.countP_cons_of_pos rfl, List.filterMap_cons_none rfl, ih, if_pos rfl]
  | within _ hopens hsignal ih =>
      rw [List.countP_cons_of_neg (by simp [hopens]),
        List.filterMap_cons_none (Event.outcome?_of_not_isSignal hsignal)]
      exact ih
  | aside _ haside ih =>
      obtain ⟨-, -, -, -, hopens, hsignal⟩ := Event.of_isQuiet (Event.isQuiet_of_isAside haside)
      rw [List.countP_cons_of_neg (by simp [hopens]),
        List.filterMap_cons_none (Event.outcome?_of_not_isSignal hsignal)]
      exact ih
  | finish _ ih | stop _ _ _ ih => simpa [Event.opensRun, Event.outcome?] using ih

theorem splitOnP_cons_of_not_opensRun {e : Event H} (he : e.opensRun = false)
    {run : List (Event H)} {past : List (List (Event H))}
    (hruns : history.splitOnP Event.opensRun = run :: past) :
    (e :: history).splitOnP Event.opensRun = (e :: run) :: past := by
  rw [List.splitOnP_cons_eq_if_modifyHead, he, hruns]
  rfl

/-- **The runs of a history.** Each one that was begun has come to one end, but for the latest
during playback; a player without playback is in the phase that the latest one has left. -/
theorem exists_runs (h : LifeCycle history phase) :
    ∃ run past, history.splitOnP Event.opensRun = run :: past ∧
      (past = [] → phase = .idle) ∧
      (past ≠ [] → run.filterMap Event.outcome? = if phase = .running then [] else [phase]) ∧
      ∀ run ∈ past.dropLast, ∃ phase, run.filterMap Event.outcome? = [phase] := by
  induction h with
  | new => exact ⟨[], [], rfl, by simp, by simp, by simp⟩
  | play name _ hphase ih =>
      obtain ⟨run, past, hruns, -, hlatest, hpast⟩ := ih
      refine ⟨[], run :: past, ?_, by simp, ?_, ?_⟩
      · rw [List.splitOnP_cons_eq_if_modifyHead, hruns]
        rfl
      · intro _
        rfl
      · cases past with
        | nil => simp
        | cons older past =>
            rw [if_neg hphase] at hlatest
            rw [List.dropLast_cons_cons]
            exact List.forall_mem_cons.mpr ⟨⟨_, hlatest (by simp)⟩, hpast⟩
  | within _ hopens hsignal ih =>
      obtain ⟨run, past, hruns, hidle, hlatest, hpast⟩ := ih
      refine ⟨_, past, splitOnP_cons_of_not_opensRun hopens hruns, hidle, ?_, hpast⟩
      rw [List.filterMap_cons_none (Event.outcome?_of_not_isSignal hsignal)]
      exact hlatest
  | aside _ haside ih =>
      obtain ⟨-, -, -, -, hopens, hsignal⟩ := Event.of_isQuiet (Event.isQuiet_of_isAside haside)
      obtain ⟨run, past, hruns, hidle, hlatest, hpast⟩ := ih
      refine ⟨_, past, splitOnP_cons_of_not_opensRun hopens hruns, hidle, ?_, hpast⟩
      rw [List.filterMap_cons_none (Event.outcome?_of_not_isSignal hsignal)]
      exact hlatest
  | finish _ ih | stop _ _ _ ih =>
      obtain ⟨run, past, hruns, hidle, hlatest, hpast⟩ := ih
      have hbegun : past ≠ [] := fun hnil => by cases hidle hnil
      refine ⟨_, past, splitOnP_cons_of_not_opensRun rfl hruns, fun hnil => absurd hnil hbegun, ?_,
        hpast⟩
      intro _
      simpa [Event.outcome?] using hlatest hbegun

end LifeCycle

/-! ### A player -/

namespace Player

variable {p p' : Player H}

/-- What the history tells of each run that was begun, the latest one first. -/
def begunRuns (p : Player H) : List (List (Event H)) := p.runs.dropLast

theorem lifeCycle_giveUp (h : LifeCycle p.playback.history .running) :
    LifeCycle (p.givenUp ++ p.playback.history) .running := by
  refine h.withinAll fun e he => ?_
  obtain ⟨task, -, rfl⟩ := mem_givenUp.mp he
  exact ⟨rfl, rfl⟩

theorem lifeCycle_stop (h : LifeCycle p.playback.history .running) (hplaying : p.isPlaying = true) :
    LifeCycle p.stop.playback.history .stopped := by
  have hindex : p.stop.status.index = none := by
    rw [status, currentIndex, stop_run hplaying]
    rfl
  rw [stop_history hplaying]
  exact .stop (.aside (lifeCycle_giveUp h) rfl) (stop_phase hplaying) hindex

theorem lifeCycle_finish (h : LifeCycle p.playback.history .running) :
    LifeCycle p.finish.playback.history .idle := by
  rw [finish_history]
  exact .finish (.aside (lifeCycle_giveUp h) rfl)

theorem phase_of_isPlaying (h : p.isPlaying = true) : p.phase = .running := by
  simpa [isPlaying] using h

theorem invariant_lifeCycle :
    Invariant fun p : Player H => p.Accounted ∧ LifeCycle p.playback.history p.phase where
  fresh sequence settings := ⟨invariant_accounted.fresh sequence settings, .new⟩
  edits := by
    rintro p q ⟨haccounted, hcycle⟩ hedits
    refine ⟨invariant_accounted.edits haccounted hedits, ?_⟩
    obtain ⟨events, hhistory, haside⟩ := hedits.history
    rw [hhistory, hedits.phase]
    exact hcycle.asideAll haside
  started := by
    rintro p ⟨haccounted, hcycle⟩ hidle
    refine ⟨invariant_accounted.started haccounted hidle, .play _ hcycle ?_⟩
    simpa [isPlaying] using hidle
  step := by
    rintro p p' fuel ⟨haccounted, hcycle⟩ hstep
    refine ⟨invariant_accounted.step haccounted hstep, ?_⟩
    rcases step_cases hstep with ⟨-, rfl⟩ | ⟨run, progress, run', pb, hrun, hreturns, rfl⟩
    · exact hcycle
    obtain ⟨events, count, hhistory, -, haccounts, -⟩ := haccounted.step hrun hreturns
    have hplaying := haccounted.consistent.isPlaying_of_run hrun
    have hphase := phase_of_isPlaying hplaying
    rw [hphase] at hcycle
    let stepped : Player H := { p with run := some run', playback := pb }
    have hstepped : LifeCycle stepped.playback.history .running := by
      change LifeCycle pb.history .running
      rw [hhistory]
      exact hcycle.withinAll haccounts.inner
    rcases stepped.conclude_cases progress with ⟨-, hend⟩ | ⟨-, -, hend⟩ | ⟨-, -, hend⟩
    · let asked := stepped.record (.noticed (.stopRequested p.sequence.name))
      have hasked : LifeCycle asked.playback.history .running := .aside hstepped rfl
      rw [hend, stop_phase (p := asked) hplaying]
      exact lifeCycle_stop hasked hplaying
    · rw [hend]
      exact lifeCycle_finish hstepped
    · rw [hend]
      change LifeCycle stepped.playback.history p.phase
      rw [hphase]
      exact hstepped
  stop := by
    rintro p ⟨haccounted, hcycle⟩
    refine ⟨invariant_accounted.stop haccounted, ?_⟩
    cases hplaying : p.isPlaying with
    | false =>
        rw [stop_of_idle hplaying]
        exact hcycle
    | true =>
        rw [phase_of_isPlaying hplaying] at hcycle
        rw [stop_phase hplaying]
        exact lifeCycle_stop hcycle hplaying

/-! ### Without playback -/

/-- From `p` to `q` there is no playback: no node is invoked, and the clock stands still. -/
structure Idles (p q : Player H) : Prop where
  isPlaying : q.isPlaying = false
  clock : q.playback.clock = p.playback.clock
  invocations : q.playback.history.filterMap Event.invocation?
    = p.playback.history.filterMap Event.invocation?

theorem Edits.idles (h : p.Edits p') (hidle : p.isPlaying = false)
    (hclock : p'.playback.clock = p.playback.clock) : p.Idles p' := by
  refine ⟨?_, hclock, ?_⟩
  · rw [isPlaying, h.phase]
    exact hidle
  · obtain ⟨events, hhistory, haside⟩ := h.history
    have hnone : events.filterMap Event.invocation? = [] :=
      List.filterMap_eq_nil_iff.mpr fun e he => (Event.of_isAside (haside e he)).2.1
    rw [hhistory, List.filterMap_append, hnone, List.nil_append]

theorem Move.idles (h : p.Move p') (hidle : p.isPlaying = false) : p.Idles p' := by
  cases h with
  | aside hedits hclock _ _ => exact hedits.idles hidle hclock
  | bind bindings =>
      exact (Edits.setBindings p bindings).idles hidle (clock_reconcileBindings _)
  | @amend bindings _ =>
      have hedits : p.Edits { p with playback := { p.playback with bindings } } :=
        .silent rfl rfl rfl rfl rfl
      exact hedits.idles hidle rfl
  | recast sequence =>
      exact (Edits.setSequence p sequence).idles hidle (clock_reconcileBindings _)
  | tick _ hplaying | stop hplaying =>
      rw [hidle] at hplaying
      cases hplaying

theorem Moves.idles (h : p.Moves p') (hidle : p.isPlaying = false) : p.Idles p' := by
  induction h with
  | refl => exact ⟨hidle, rfl, rfl⟩
  | tail _ hmove ih =>
      have hlast := hmove.idles ih.isPlaying
      exact ⟨hlast.isPlaying, hlast.clock.trans ih.clock, hlast.invocations.trans ih.invocations⟩

/-! ### The number of runs -/

/-- The number of runs that were begun. -/
def begun (p : Player H) : Nat := p.playback.history.countP Event.opensRun

theorem length_begunRuns (p : Player H) : p.begunRuns.length = p.begun := by
  rw [begunRuns, List.length_dropLast, runs, length_splitOnP, Nat.add_sub_cancel]
  rfl

theorem begun_append {events : List (Event H)}
    (hhistory : p'.playback.history = events ++ p.playback.history)
    (hinner : ∀ e ∈ events, e.opensRun = false) : p'.begun = p.begun := by
  have hnone : events.countP Event.opensRun = 0 :=
    List.countP_eq_zero.mpr fun e he => by simp [hinner e he]
  rw [begun, hhistory, List.countP_append, hnone, Nat.zero_add]
  rfl

theorem Edits.begun (h : p.Edits p') : p'.begun = p.begun := by
  obtain ⟨events, hhistory, haside⟩ := h.history
  exact begun_append hhistory fun e he =>
    (Event.of_isQuiet (Event.isQuiet_of_isAside (haside e he))).2.2.2.2.1

theorem begun_step {fuel : Nat} (h : p.Accounted) (hstep : p.step fuel = some p') :
    p'.begun = p.begun := by
  rcases step_cases hstep with ⟨-, rfl⟩ | ⟨run, progress, run', pb, hrun, hreturns, rfl⟩
  · rfl
  obtain ⟨events, count, hhistory, -, haccounts, -⟩ := h.step hrun hreturns
  let stepped : Player H := { p with run := some run', playback := pb }
  have hplaying : stepped.isPlaying = true := h.consistent.isPlaying_of_run hrun
  obtain ⟨ending, hending, hclosing, -⟩ := history_conclude hplaying progress
  calc (stepped.conclude progress).begun = stepped.begun :=
        begun_append hending fun e he => Event.opensRun_of_isClosing (hclosing e he)
    _ = p.begun := begun_append hhistory fun e he => (haccounts.inner e he).1

theorem begun_started (p : Player H) : p.started.begun = p.begun + 1 :=
  List.countP_cons_of_pos rfl

theorem Move.begun (h : p.Move p') (hp : p.Accounted) : p'.begun = p.begun := by
  cases h with
  | aside hedits _ _ _ => exact hedits.begun
  | bind bindings => exact (Edits.setBindings p bindings).begun
  | amend => rfl
  | recast sequence => exact (Edits.setSequence p sequence).begun
  | tick delta _ hstep =>
      have hlater : (p.later delta).Accounted := hp.edits (edits_later p delta)
      exact (begun_step hlater hstep).trans (edits_later p delta).begun
  | stop hplaying =>
      let ending : List (Event H) :=
        .stopped p.stop.status :: .noticed (.stopped p.sequence.name) :: p.givenUp
      have hhistory : p.stop.playback.history = ending ++ p.playback.history :=
        stop_history hplaying
      exact begun_append hhistory (by simp [ending, Event.opensRun, Notice.opensRun])

theorem Moves.begun (h : p.Moves p') (hp : p.Accounted) : p'.begun = p.begun := by
  induction h with
  | refl => rfl
  | tail hmoves hmove ih => exact (hmove.begun (invariant_accounted.moves hp hmoves)).trans ih

/-- Does the command begin a run? -/
def Command.begins (playing : Bool) : Command H → Bool
  | .play => !playing
  | .restart => true
  | _ => false

theorem begun_begin {fuel : Nat} {q : Player H} (hp : p.Accounted) (hmoves : p.Moves q)
    (hidle : q.isPlaying = false) (hstep : q.started.step fuel = some p') :
    p'.begun = p.begun + 1 := by
  have hq : q.Accounted := invariant_accounted.moves hp hmoves
  calc p'.begun = q.started.begun := begun_step (invariant_accounted.started hq hidle) hstep
    _ = q.begun + 1 := begun_started q
    _ = p.begun + 1 := by rw [hmoves.begun hp]

theorem begun_obey {fuel : Nat} {command : Command H} (hp : p.Accounted)
    (h : p.obey fuel command = some p') :
    p'.begun = p.begun + if command.begins p.isPlaying then 1 else 0 := by
  by_cases hplay : command = .play
  · subst hplay
    change p.play fuel = some p' at h
    rw [play_eq] at h
    cases hplaying : p.isPlaying with
    | true =>
        rw [hplaying, if_pos rfl] at h
        cases h
        rfl
    | false =>
        rw [hplaying, if_neg Bool.false_ne_true] at h
        exact begun_begin hp .refl hplaying h
  · by_cases hrestart : command = .restart
    · subst hrestart
      obtain ⟨q, hmoves, hidle, hstep⟩ := restart_cases h
      exact begun_begin hp hmoves hidle hstep
    · have hnone : command.begins p.isPlaying = false := by
        cases command <;> first | rfl | contradiction
      rw [hnone]
      exact (moves_obey hplay hrestart h).begun hp

/-! ### The theorem -/

/-- A move that keeps still without playback. -/
def Restrained (p q : Player H) : Prop := p.Move q ∧ (p.isPlaying = false → p.Idles q)

theorem Moves.restrained (h : p.Moves p') : ReflTransGen Restrained p p' :=
  h.lift id fun _ _ hmove => ⟨hmove, hmove.idles⟩

/-- The runs of a player, as the history has them. -/
theorem outcome_of_lifeCycle (h : LifeCycle p.playback.history p.phase) :
    (p.begunRuns = [] → p.phase = .idle) ∧
    ∀ run past, p.begunRuns = run :: past →
      run.filterMap Event.outcome? = (if p.isPlaying then [] else [p.phase]) ∧
      ∀ run ∈ past, ∃ phase, run.filterMap Event.outcome? = [phase] := by
  obtain ⟨latest, rest, hruns, hidle, hlatest, hpast⟩ := h.exists_runs
  have hbegun : p.begunRuns = (latest :: rest).dropLast := by rw [begunRuns, runs, hruns]
  cases rest with
  | nil =>
      refine ⟨fun _ => hidle rfl, fun run past heq => ?_⟩
      rw [hbegun] at heq
      cases heq
  | cons older rest =>
      rw [List.dropLast_cons_cons] at hbegun
      refine ⟨fun hnil => ?_, fun run past heq => ?_⟩
      · rw [hbegun] at hnil
        cases hnil
      · rw [hbegun] at heq
        obtain ⟨rfl, rfl⟩ := List.cons.inj heq
        refine ⟨?_, hpast⟩
        rw [hlatest (List.cons_ne_nil older rest)]
        simp [isPlaying]

theorem count_outcome (h : LifeCycle p.playback.history p.phase) :
    p.begun = (p.playback.history.filterMap Event.outcome?).count .idle
      + (p.playback.history.filterMap Event.outcome?).count .stopped
      + if p.isPlaying then 1 else 0 := by
  rw [← Event.length_outcomes]
  simpa [isPlaying, begun] using h.begun_eq

/-- **Life cycle.** Between two commands a player has a cursor exactly during playback, and no stop
is pending. Each run comes to one end, by itself or by a stop; the host is told once, and the player
is left in the phase that the end leads to. Whoever is told of a stop sees a stopped player without
a cursor. Nodes are invoked within runs only. `play` begins a run if there is none, `restart` begins
one, and no other command does; what such a command does without playback invokes no node and leaves
the clock alone. -/
theorem life_cycle (hp : p.Reachable) :
    (p.isPlaying = p.currentIndex.isSome ∧ p.playback.stopRequested = false) ∧
    p.begunRuns.length = (p.playback.history.filterMap Event.outcome?).count .idle
      + (p.playback.history.filterMap Event.outcome?).count .stopped
      + (if p.isPlaying then 1 else 0) ∧
    ((p.begunRuns = [] → p.phase = .idle) ∧
      ∀ run past, p.begunRuns = run :: past →
        run.filterMap Event.outcome? = (if p.isPlaying then [] else [p.phase]) ∧
        ∀ run ∈ past, ∃ phase, run.filterMap Event.outcome? = [phase]) ∧
    (∀ status, .stopped status ∈ p.playback.history →
      status.phase = .stopped ∧ status.index = none) ∧
    (∀ newer i older, p.playback.history = newer ++ .invoked i :: older →
      older.countP Event.opensRun = (older.filterMap Event.outcome?).length + 1) ∧
    ∀ fuel command p', p.obey fuel command = some p' →
      p'.begunRuns.length
        = p.begunRuns.length + (if command.begins p.isPlaying then 1 else 0) ∧
      (command ≠ .play → command ≠ .restart →
        ReflTransGen Restrained p p' ∧ (p.isPlaying = false → p.Idles p')) := by
  obtain ⟨haccounted, hcycle⟩ := invariant_lifeCycle.of_reachable hp
  refine ⟨⟨?_, haccounted.consistent.calm⟩, ?_, outcome_of_lifeCycle hcycle,
    fun status hmem => hcycle.of_stopped hmem, fun newer i older hsplit => ?_,
    fun fuel command p' hobey => ⟨?_, fun hplay hrestart => ?_⟩⟩
  · rw [haccounted.consistent.running, currentIndex, Option.isSome_map]
  · rw [length_begunRuns]
    exact count_outcome hcycle
  · rw [hsplit] at hcycle
    obtain ⟨phase, hinvoked⟩ := hcycle.of_append
    exact hinvoked.of_invoked.begun_eq
  · rw [length_begunRuns, length_begunRuns]
    exact begun_obey haccounted hobey
  · have hmoves := moves_obey hplay hrestart hobey
    exact ⟨hmoves.restrained, hmoves.idles⟩

/-- A vigil that was stopped, and then begun again and left to its end, and again begun: three runs.
The one under way has told its host nothing yet. -/
theorem life_cycle_vigil :
    ∃ p : Player Host.none, p.Reachable ∧ p.isPlaying = true ∧ p.currentIndex = some 2 ∧
      p.playback.history.filterMap Event.outcome? = [.idle, .stopped] ∧
      p.begunRuns.length = 3 ∧
      (∃ run past, p.begunRuns = run :: past ∧ run.filterMap Event.outcome? = [] ∧
        ∀ run ∈ past, ∃ phase, run.filterMap Event.outcome? = [phase]) ∧
      p.stop.begunRuns.length = 3 := by
  have hcomputed : ((Player.new vigil).obeyAll 9 [.play, .stop, .play, .tick 0.5, .tick 0.5,
      .tick 0.5, .tick 0.5, .play]).map (fun p =>
        (p.currentIndex, p.playback.history.filterMap Event.outcome?)) =
      some (some 2, [.idle, .stopped]) := by decide +kernel
  obtain ⟨p, hp, hvalues⟩ := Option.map_eq_some_iff.mp hcomputed
  obtain ⟨hindex, houtcomes⟩ := Prod.mk.inj hvalues
  have hreachable : p.Reachable := (Reachable.new vigil {}).obeyAll hp
  obtain ⟨⟨hplaying, -⟩, hbegun, ⟨-, hruns⟩, -, -, hcommands⟩ := life_cycle hreachable
  rw [hindex, Option.isSome_some] at hplaying
  rw [houtcomes, hplaying] at hbegun
  have hthree : p.begunRuns.length = 3 := hbegun
  obtain ⟨run, past, heq⟩ := List.exists_cons_of_length_eq_add_one hthree
  obtain ⟨hrun, hpast⟩ := hruns run past heq
  rw [hplaying] at hrun
  have hstop : p.stop.begunRuns.length = 3 := by
    rw [(hcommands 9 .stop p.stop rfl).1, hthree]
    rfl
  exact ⟨p, hreachable, hplaying, hindex, houtcomes, hthree, ⟨run, past, heq, hrun, hpast⟩, hstop⟩

end Player

end Sequencer
