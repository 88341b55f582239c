import Sequencer.Proofs.Playback.Moves
import Sequencer.Proofs.Player.Commands

/-!
# Sequencer.Proofs.Player.Stopping

How playback ends. A stop and the natural end leave a player without a run, and the history tells
which tasks were given up. Between two commands no stop is requested, and there is a run exactly
during playback (`Consistent`).

A stop that is requested within a step takes effect in this step (`stop_ends_step`): no node is
invoked any more, wherever in the tree the request came from, and the player ends up stopped.
-/

namespace Sequencer

open Relation

variable {H : Host}

theorem Playback.history_abandon (pb : Playback H) (tasks : List Held) :
    (pb.abandon tasks).history = (tasks.map Event.abandoned).reverse ++ pb.history := by
  induction tasks generalizing pb with
  | nil => rfl
  | cons task rest ih =>
      change ((pb.record (.abandoned task)).abandon rest).history = _
      simp [ih, Playback.record]

/-! ### The end of playback -/

/-- May the event be part of the end of playback? -/
def Event.isClosing : Event H → Bool
  | abandoned _ | finished | stopped _ => true
  | noticed n => !n.opensRun
  | _ => false

theorem Event.of_isClosing {e : Event H} (h : e.isClosing = true) :
    e.invocation? = none ∧ e.launched? = none ∧ e.polled? = none ∧ e ≠ .stopRequested := by
  cases e <;> simp_all [isClosing, invocation?, launched?, polled?]

namespace Player

/-- The unfinished tasks of the run. -/
def held (p : Player H) : List Held := (p.run.map Run.held).getD []

variable {p : Player H}

/-- What the history tells when the tasks of the run are given up. -/
def givenUp (p : Player H) : List (Event H) := (p.held.map .abandoned).reverse

@[simp] theorem mem_givenUp {e : Event H} :
    e ∈ p.givenUp ↔ ∃ task ∈ p.held, .abandoned task = e := by
  simp [givenUp]

@[simp] theorem signals_givenUp : p.givenUp.filter Event.isSignal = [] := by
  rw [List.filter_eq_nil_iff]
  rintro e he
  obtain ⟨task, -, rfl⟩ := mem_givenUp.mp he
  simp [Event.isSignal]

theorem history_giveUp (p : Player H) :
    (p.playback.abandon p.held).history = p.givenUp ++ p.playback.history :=
  Playback.history_abandon _ _

@[simp] theorem stop_run (h : p.isPlaying = true) : p.stop.run = none := by
  unfold stop
  rw [h]
  rfl

@[simp] theorem stop_phase (h : p.isPlaying = true) : p.stop.phase = .stopped := by
  unfold stop
  rw [h]
  rfl

@[simp] theorem stop_stopRequested (h : p.isPlaying = true) :
    p.stop.playback.stopRequested = false := by
  unfold stop
  rw [h]
  rfl

/-- A stop gives up every task of the run, and tells the host once. -/
theorem stop_history (h : p.isPlaying = true) :
    p.stop.playback.history = .stopped p.stop.status :: .noticed (.stopped p.sequence.name) ::
      (p.givenUp ++ p.playback.history) := by
  rw [← history_giveUp]
  unfold stop
  rw [h]
  rfl

@[simp] theorem finish_run : p.finish.run = none := rfl

@[simp] theorem finish_phase : p.finish.phase = .idle := rfl

@[simp] theorem finish_stopRequested :
    p.finish.playback.stopRequested = p.playback.stopRequested :=
  Playback.abandon_stopRequested _ _

theorem finish_history :
    p.finish.playback.history = .finished ::
      .noticed (.finished p.sequence.name ((p.playback.abandon p.held).clock.frame + 1)) ::
      (p.givenUp ++ p.playback.history) := by
  rw [← history_giveUp]
  rfl

@[simp] theorem stop_parameters :
    p.stop.playback.parameters = p.playback.parameters := by
  unfold stop
  split
  · exact Playback.abandon_parameters _ _
  · rfl

@[simp] theorem finish_parameters :
    p.finish.playback.parameters = p.playback.parameters :=
  Playback.abandon_parameters _ _

/-- A stop adds to the log and tells the host, if there is anything to stop. So it does after
another entry of the log. -/
theorem history_stop (p : Player H) {n : Notice} (hn : n.opensRun = false) :
    ∃ closing, (p.record (.noticed n)).stop.playback.history = closing ++ p.playback.history ∧
      (∀ e ∈ closing, e.isClosing = true) ∧ closing.filter Event.isSignal =
        if p.isPlaying then [.stopped (p.record (.noticed n)).stop.status] else [] := by
  let noted := p.record (.noticed n)
  cases hplaying : p.isPlaying with
  | false =>
      have hidle : noted.isPlaying = false := hplaying
      refine ⟨[.noticed n], ?_, by simp [Event.isClosing, hn], rfl⟩
      rw [stop_of_idle hidle]
      rfl
  | true =>
      have hstopped : (Notice.stopped p.sequence.name).opensRun = false := rfl
      refine ⟨.stopped noted.stop.status :: .noticed (.stopped p.sequence.name) ::
        (p.givenUp ++ [.noticed n]), ?_, ?_, ?_⟩
      · rw [stop_history (p := noted) hplaying]
        simp [noted, record, Playback.record, givenUp, held]
      · simp [or_imp, forall_and, Event.isClosing, hstopped, hn]
      · simp [noted, List.filter_cons, Event.isSignal]

/-! ### The end of a step -/

/-- What follows a step of the run gives up tasks, adds to the log and tells the host of the end, of
a stop if one was requested. -/
theorem history_conclude (hplaying : p.isPlaying = true) (progress : Progress) :
    ∃ ending, (p.conclude progress).playback.history = ending ++ p.playback.history ∧
      (∀ e ∈ ending, e.isClosing = true) ∧ ending.filter Event.isSignal =
        if p.playback.stopRequested then [.stopped (p.conclude progress).status]
        else if progress.isDone then [.finished] else [] := by
  rcases p.conclude_cases progress with ⟨hstop, hend⟩ | ⟨hgo, rfl, hend⟩ | ⟨hgo, rfl, hend⟩
  · obtain ⟨closing, heq, hclosing, hsignals⟩ :=
      p.history_stop (n := .stopRequested p.sequence.name) rfl
    rw [hplaying, if_pos rfl] at hsignals
    refine ⟨closing, by rw [hend, heq], hclosing, ?_⟩
    rw [hstop, if_pos rfl, hsignals, hend]
  · refine ⟨_, by rw [hend, finish_history, ← List.cons_append, ← List.cons_append], ?_, ?_⟩
    · simp [or_imp, forall_and, Event.isClosing, Notice.opensRun]
    · simp [hgo, Progress.isDone, List.filter_cons, Event.isSignal]
  · exact ⟨[], by rw [hend]; rfl, by simp, by simp [hgo, Progress.isDone]⟩

theorem conclude_parameters (p : Player H) (progress : Progress) :
    (p.conclude progress).playback.parameters = p.playback.parameters := by
  rcases p.conclude_cases progress with ⟨-, hend⟩ | ⟨-, -, hend⟩ | ⟨-, -, hend⟩
  · rw [hend, stop_parameters]
    rfl
  · rw [hend, finish_parameters]
  · rw [hend]

/-- A requested stop ends playback, whatever the run has come to. -/
theorem conclude_phase_stopped (hplaying : p.isPlaying = true)
    (hasked : p.playback.stopRequested = true) (progress : Progress) :
    (p.conclude progress).phase = .stopped ∧ (p.conclude progress).run = none := by
  rw [conclude, if_pos hasked]
  exact ⟨stop_phase hplaying, stop_run hplaying⟩

/-! ### Between two commands -/

/-- No stop is requested, and there is a run exactly during playback. -/
structure Consistent (p : Player H) : Prop where
  calm : p.playback.stopRequested = false
  running : p.isPlaying = p.run.isSome

theorem Consistent.isPlaying_of_run (h : p.Consistent) {run : SequenceRun H}
    (hrun : p.run = some run) : p.isPlaying = true := by
  rw [h.running, hrun]
  rfl

theorem Consistent.run_of_idle (h : p.Consistent) (hidle : p.isPlaying = false) :
    p.run = none := by
  rw [h.running] at hidle
  exact Option.isNone_iff_eq_none.mp (by simpa using hidle)

theorem consistent_stop (h : p.isPlaying = true) : p.stop.Consistent := by
  refine ⟨stop_stopRequested h, ?_⟩
  rw [isPlaying, stop_phase h, stop_run h]
  rfl

theorem invariant_consistent : Invariant (Consistent (H := H)) where
  fresh _ _ := ⟨rfl, rfl⟩
  edits := by
    intro p q hp h
    refine ⟨h.stopRequested.trans hp.calm, ?_⟩
    rw [h.run, ← hp.running, isPlaying, h.phase]
    rfl
  started _ _ := ⟨rfl, rfl⟩
  step := by
    intro p p' fuel hp h
    rcases step_cases h with ⟨-, rfl⟩ | ⟨run, progress, run', playback, hrun, -, rfl⟩
    · exact hp
    have hplaying := hp.isPlaying_of_run hrun
    rcases conclude_cases { p with run := some run', playback } progress with
      ⟨-, heq⟩ | ⟨hcalm, -, heq⟩ | ⟨hcalm, -, heq⟩
    · rw [heq]
      exact consistent_stop hplaying
    · rw [heq]
      exact ⟨finish_stopRequested.trans hcalm, rfl⟩
    · rw [heq]
      exact ⟨hcalm, hplaying⟩
  stop := by
    intro p hp
    cases hplaying : p.isPlaying with
    | false => rwa [stop_of_idle hplaying]
    | true => exact consistent_stop hplaying

end Player

/-! ### Within a step -/

/-- What is not in front of a list is behind it. -/
theorem exists_of_append_eq {α : Type} {x : α} {front events newer older : List α}
    (h : front ++ events = newer ++ x :: older) (hx : x ∉ front) :
    ∃ between, newer = front ++ between ∧ events = between ++ x :: older := by
  rcases List.append_eq_append_iff.mp h with ⟨m, rfl, rfl⟩ | ⟨m, rfl, hm⟩
  · exact ⟨m, rfl, rfl⟩
  · rcases m with _ | ⟨y, m⟩
    · exact ⟨[], by simp, hm.symm⟩
    · obtain ⟨rfl, -⟩ := List.cons.inj hm
      simp at hx

/-- From `a` to `b` a stop request is heeded. The history tells of the first request, and of no
invocation after it. -/
def Playback.Heeds (a b : Playback H) : Prop :=
  ∃ events, b.history = events ++ a.history ∧ (∀ e ∈ events, e.isSignal = false) ∧
    (b.stopRequested = true ↔ a.stopRequested = true ∨ .stopRequested ∈ events) ∧
    ∀ newer older, events = newer ++ .stopRequested :: older → ∀ i, .invoked i ∉ newer

namespace Playback.Heeds

variable {a b c : Playback H}

theorem refl (a : Playback H) : a.Heeds a :=
  ⟨[], rfl, by simp, by simp, by simp⟩

/-- One more event. A node is invoked only while no stop is requested. -/
theorem event (h : a.Heeds b) {e : Event H} (hhistory : c.history = e :: b.history)
    (hsignal : e.isSignal = false)
    (hstop : c.stopRequested = true ↔ b.stopRequested = true ∨ e = .stopRequested)
    (hinvoked : e.invocation? = none ∨ b.stopRequested = false) : a.Heeds c := by
  obtain ⟨events, heq, hsignals, hflag, hnone⟩ := h
  refine ⟨e :: events, by rw [hhistory, heq, List.cons_append],
    List.forall_mem_cons.mpr ⟨hsignal, hsignals⟩, ?_, ?_⟩
  · rw [hstop, hflag, List.mem_cons, eq_comm (a := e), or_assoc, or_comm (a := _ ∈ events)]
  · intro newer older hsplit i hi
    rcases newer with _ | ⟨x, newer⟩
    · cases hi
    rw [List.cons_append, List.cons.injEq] at hsplit
    obtain ⟨rfl, hsplit⟩ := hsplit
    rcases List.mem_cons.mp hi with rfl | hi
    · -- The request was already there when this node was invoked.
      have hrequested : b.stopRequested = true := hflag.mpr (.inr (by simp [hsplit]))
      simp [Event.invocation?, hrequested] at hinvoked
    · exact hnone newer older hsplit i hi

theorem of_moves (h : a.Moves b) : a.Heeds b := by
  induction h with
  | refl => exact refl a
  | tail _ hmove ih =>
      cases hmove with
      | act hact =>
          cases hact with
          | write parameters => exact ih
          | tell he =>
              obtain ⟨hsignal, hinvoked, hne⟩ := Event.of_isAside he
              exact ih.event rfl hsignal (by simp [record, hne]) (.inl hinvoked)
          | askStop hgo => exact ih.event rfl rfl (by simp [record]) (.inl rfl)
      | invoke cx s nested position entry parallel hgo =>
          exact ih.event rfl rfl (by simp [Context.record, record]) (.inr hgo)
      | launch => exact ih.event rfl rfl (by simp [record]) (.inl rfl)
      | report _ he =>
          obtain ⟨hsignal, hinvoked, hne⟩ := Event.of_isReport he
          exact ih.event rfl hsignal (by simp [record, hne]) (.inl hinvoked)

end Playback.Heeds

namespace Player

theorem Begins.consistent {p q : Player H} (hp : p.Reachable) (hq : p.Begins q) :
    q.Consistent ∧ q.isPlaying = true := by
  have hconsistent := invariant_consistent.of_reachable hp
  cases hq with
  | play hidle => exact ⟨invariant_consistent.started hconsistent hidle, rfl⟩
  | tick delta hplaying =>
      exact ⟨invariant_consistent.edits hconsistent (edits_later p delta), hplaying⟩

/-- **A requested stop takes effect in the step.** Whatever the scheduler comes to in a step,
whether the step comes to an end or not: a stop is requested exactly if the history of this step has
a request, and the scheduler sets out to visit a node only if it has none. If the step comes to an
end and a stop was requested in it, then no node was invoked after that, the player is stopped and
has no run, and it has told its host once that it stopped and not that it finished. -/
theorem stop_ends_step {p q : Player H} (hp : p.Reachable) (hq : p.Begins q) :
    (∀ run a, q.run = some run → (Errand.step run q.playback).Leads a →
      ∃ events, a.playback.history = events ++ q.playback.history ∧
        (a.playback.stopRequested = true ↔ .stopRequested ∈ events) ∧
        ∀ s nested position entry parallel cx, a = .visit s nested position entry parallel cx →
          .stopRequested ∉ events) ∧
    ∀ fuel p', q.step fuel = some p' → ∃ events,
      p'.playback.history = events ++ q.playback.history ∧
      ∀ newer older, events = newer ++ .stopRequested :: older →
        (∀ i, .invoked i ∉ newer) ∧ p'.phase = .stopped ∧ p'.run = none ∧
        events.filter Event.isSignal = [.stopped p'.status] := by
  obtain ⟨hconsistent, hplaying⟩ := hq.consistent hp
  constructor
  · -- A step that may not come to an end: the way to the errand is made of moves.
    intro run a _ hleads
    obtain ⟨hmoves, hpermitted⟩ := hleads.moves trivial
    obtain ⟨events, heq, -, hflag, -⟩ := Playback.Heeds.of_moves hmoves
    have hflag : a.playback.stopRequested = true ↔ .stopRequested ∈ events := by
      rw [hflag]
      simp [Errand.playback, hconsistent.calm]
    refine ⟨events, heq, hflag, ?_⟩
    rintro s nested position entry parallel cx rfl hrequested
    have hgo : cx.stopRequested = false := hpermitted
    rw [← hflag] at hrequested
    exact absurd hrequested (Bool.eq_false_iff.mp hgo)
  · intro fuel p' hstep
    rcases step_cases hstep with ⟨hnone, -⟩ | ⟨run, progress, run', pb, hrun, hreturns, rfl⟩
    · rw [hconsistent.running, hnone] at hplaying
      cases hplaying
    have hheeds : q.playback.Heeds pb := .of_moves (hreturns.moves trivial)
    obtain ⟨events, heq, hsignals, hflag, hafter⟩ := hheeds
    rw [hconsistent.calm, or_iff_right (by simp)] at hflag
    let stepped : Player H := { q with run := some run', playback := pb }
    obtain ⟨ending, hending, hclosing, htold⟩ := history_conclude (p := stepped) hplaying progress
    refine ⟨ending ++ events, by rw [hending, heq, List.append_assoc], fun newer older hsplit => ?_⟩
    -- The request is one of the step itself, not of what follows it.
    have hnone : .stopRequested ∉ ending := fun hmem =>
      (Event.of_isClosing (hclosing _ hmem)).2.2.2 rfl
    obtain ⟨between, rfl, hbetween⟩ := exists_of_append_eq hsplit hnone
    have hasked : stepped.playback.stopRequested = true := hflag.mpr (by simp [hbetween])
    obtain ⟨hphase, hrun⟩ := conclude_phase_stopped (p := stepped) hplaying hasked progress
    refine ⟨fun i hi => ?_, hphase, hrun, ?_⟩
    · rcases List.mem_append.mp hi with hi | hi
      · cases (Event.of_isClosing (hclosing _ hi)).1
      · exact hafter between older hbetween i hi
    · have hquiet : events.filter Event.isSignal = [] := by
        simpa [List.filter_eq_nil_iff] using hsignals
      rw [List.filter_append, hquiet, List.append_nil, htold, if_pos hasked]

/-- A parallel sequence whose first node asks for a stop. -/
def curtain : Sequence Host.none where
  id := ⟨.ofNat 2⟩
  name := "curtain"
  parallel := true
  nodes := [.new ⟨.ofNat 1⟩ .stop, .new ⟨.ofNat 2⟩ (.log (.new "too late") .info)]

/-- Two curtains in a block, and a line for the log behind it. -/
def finale : Sequence Host.none where
  id := ⟨.ofNat 1⟩
  name := "finale"
  nodes := [
    .new ⟨.ofNat 1⟩ (.parallelNext 2),
    .new ⟨.ofNat 2⟩ (.nested curtain ⟨.ofNat 2⟩ (.times 2 LoopCount.inRange_two)),
    .new ⟨.ofNat 3⟩ (.nested curtain ⟨.ofNat 3⟩ .once),
    .new ⟨.ofNat 4⟩ (.log (.new "too late") .info)]

/-- The first curtain falls, and nothing else begins: not its second node, nor its second pass, nor
the other branch, nor what follows the block. -/
theorem stop_ends_step_finale :
    (Player.new finale).Reachable ∧ (Player.new finale).Begins (Player.new finale).started ∧
    ∃ p' events, (Player.new finale).started.step 9 = some p' ∧
      p'.playback.history = events ++ (Player.new finale).started.playback.history ∧
      .stopRequested ∈ events ∧ p'.phase = .stopped ∧ p'.run = none ∧
      events.filter Event.isSignal = [.stopped p'.status] ∧
      (events.filterMap Event.invocation?).reverse.map (·.position) = [0, 1, 0] := by
  have hreachable : (Player.new finale).Reachable := .new finale {}
  have hbegins : (Player.new finale).Begins (Player.new finale).started := .play rfl
  have hcomputed : ((Player.new finale).started.step 9).map (fun p' =>
      (p'.playback.history.any (· matches .stopRequested),
        (p'.playback.history.filterMap Event.invocation?).reverse.map (·.position)))
        = some (true, [0, 1, 0]) := by decide +kernel
  obtain ⟨p', hstep, hp'⟩ := Option.map_eq_some_iff.mp hcomputed
  obtain ⟨hrequested, hinvoked⟩ := Prod.mk.inj hp'
  obtain ⟨events, heq, hend⟩ := (stop_ends_step hreachable hbegins).2 9 p' hstep
  have hbefore : (Player.new finale).started.playback.history
      = [.noticed (.playing "finale")] := rfl
  rw [heq, hbefore] at hrequested hinvoked
  have hmem : .stopRequested ∈ events := by
    obtain ⟨e, he, hstop⟩ := List.any_eq_true.mp hrequested
    cases e <;> simp_all
  obtain ⟨newer, older, hsplit⟩ := List.append_of_mem hmem
  obtain ⟨-, hphase, hrun, hsignals⟩ := hend newer older hsplit
  refine ⟨hreachable, hbegins, p', events, hstep, heq, hmem, hphase, hrun, hsignals, ?_⟩
  have hquiet : [Event.noticed (H := Host.none) (.playing "finale")].filterMap Event.invocation?
      = [] := rfl
  rw [List.filterMap_append, hquiet, List.append_nil] at hinvoked
  exact hinvoked

end Player

end Sequencer
