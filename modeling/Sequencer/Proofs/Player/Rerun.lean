import Sequencer.Proofs.Playback.Past
import Sequencer.Proofs.Player.Addressing
import Sequencer.Proofs.Player.Backlog
import Sequencer.Proofs.Player.Tickets

/-!
# Sequencer.Proofs.Player.Rerun

A run knows nothing of the runs before it.

Every part of a player that a run works on is set anew at its start, or is the sequence, the
settings, the parameters or the bindings; what is left is the history, which nothing that runs reads
(`Player.onto`). So two players that have those four in common (`Alike`) cannot be told apart once
both have begun a run, whatever was done to each of them before (`rerun_alike`).

What a host can tell players apart by is a `Response`: what happened during a command, what the
player shows after it, its parameters and bindings among that, and how many steps an update took. A
`session` is the responses to a list of commands.
-/

namespace Sequencer

variable {H : Host}

namespace Player

/-! ### Another past -/

/-- The player with a past behind its history. -/
def onto (p : Player H) (past : List (Event H)) : Player H :=
  { p with playback := p.playback.onto past }

variable (p : Player H) (past : List (Event H)) (fuel : Nat)

@[simp] theorem isPlaying_onto : (p.onto past).isPlaying = p.isPlaying := rfl

@[simp] theorem status_onto : (p.onto past).status = p.status := rfl

@[simp] theorem timestep?_onto : (p.onto past).timestep? = p.timestep? := rfl

@[simp] theorem record_onto (e : Event H) : (p.onto past).record e = (p.record e).onto past := rfl

@[simp] theorem started_onto : (p.onto past).started = p.started.onto past := rfl

@[simp] theorem later_onto (delta : Float) :
    (p.onto past).later delta = (p.later delta).onto past := rfl

@[simp] theorem stop_onto : (p.onto past).stop = p.stop.onto past := by
  unfold stop
  rw [isPlaying_onto]
  split
  · dsimp only [onto]
    rw [Playback.abandon_onto]
    rfl
  · rfl

@[simp] theorem finish_onto : (p.onto past).finish = p.finish.onto past := by
  unfold finish
  dsimp only [onto]
  rw [Playback.abandon_onto]
  rfl

theorem conclude_onto (progress : Progress) :
    (p.onto past).conclude progress = (p.conclude progress).onto past := by
  have hstop := stop_onto (p.record (.noticed (.stopRequested p.sequence.name))) past
  have hfinish := finish_onto p past
  unfold conclude
  rw [apply_ite (Player.onto · past), apply_ite (Player.onto · past), ← hstop, ← hfinish]
  rfl

theorem step_onto : (p.onto past).step fuel = (p.step fuel).map (·.onto past) := by
  rw [step_eq, step_eq]
  rw [show (p.onto past).run = p.run from rfl,
    show (p.onto past).playback = p.playback.onto past from rfl]
  rcases p.run with _ | run
  · rfl
  · dsimp only
    rw [Run.step_onto (Task.heedless_poll fuel) past, Option.map_map, Option.map_map]
    congr 1
    funext r
    exact conclude_onto { p with run := some r.2.1, playback := r.2.2 } past r.1

theorem play_onto : (p.onto past).play fuel = (p.play fuel).map (·.onto past) := by
  rw [play_eq, play_eq, isPlaying_onto, started_onto, step_onto]
  split <;> rfl

theorem restart_onto : (p.onto past).restart fuel = (p.restart fuel).map (·.onto past) := by
  rw [restart, restart, record_onto, stop_onto]
  exact play_onto _ past fuel

theorem tick_onto (delta : Float) :
    (p.onto past).tick fuel delta = (p.tick fuel delta).map (·.onto past) := by
  rw [tick_eq, tick_eq, isPlaying_onto, later_onto, step_onto]
  split <;> rfl

@[simp] theorem reconcileBindings_onto :
    (p.onto past).reconcileBindings.2 = p.reconcileBindings.2.onto past := by
  have hnotices := Playback.notice_onto
    { p.playback with bindings := (p.playback.bindings.reconcile p.sequence).bindings } past
    (p.playback.bindings.reconcile p.sequence).notices
  exact congrArg (fun playback => { p with playback }) hnotices

theorem update_onto (delta : Float) :
    (p.onto past).update fuel delta = (p.update fuel delta).map fun r => (r.1, r.2.onto past) := by
  unfold update
  rw [isPlaying_onto]
  split
  · dsimp only
    rw [timestep?_onto]
    rcases p.timestep? with _ | timestep
    · dsimp only
      rw [show (p.onto past).settings = p.settings from rfl, tick_onto, Option.map_map,
        Option.map_map]
      rfl
    · -- the loop starts with the credit for `delta`, and only adds to the history
      let credited : Player H := { p with backlog := p.backlog + p.settings.scaledDelta delta }
      have hdrain := (stepped (H := H) fuel timestep).drain_map (·.onto past) (fun _ => rfl)
        (fun _ => rfl) (fun _ _ => rfl) (fun q => tick_onto q past fuel timestep) timestep 0.0 0
        (max 1 p.settings.maxStepsPerUpdate.toNat) credited
      dsimp only
      rw [show { p.onto past with
          backlog := (p.onto past).backlog + (p.onto past).settings.scaledDelta delta }
            = credited.onto past from rfl]
      rw [show (p.onto past).settings = p.settings from rfl, hdrain]
      rcases (stepped (H := H) fuel timestep).drain timestep 0.0 0
        (max 1 p.settings.maxStepsPerUpdate.toNat) credited
        with _ | ⟨q, steps, _ | seconds⟩ <;> rfl
  · rfl

theorem setSequence_onto (sequence : Sequence H) :
    (p.onto past).setSequence sequence = (p.setSequence sequence).onto past := by
  unfold setSequence
  rw [stop_onto]
  exact reconcileBindings_onto { p.stop with sequence } past

theorem setBindings_onto (bindings : Bindings) :
    ((p.onto past).setBindings bindings).2 = (p.setBindings bindings).2.onto past :=
  reconcileBindings_onto { p with playback := { p.playback with bindings } } past

/-- Every command comes to the same, with the past behind what it adds to the history. -/
theorem obey_onto (command : Command H) :
    (p.onto past).obey fuel command = (p.obey fuel command).map (·.onto past) := by
  cases command with
  | play => exact play_onto p past fuel
  | stop => exact congrArg some (stop_onto p past)
  | restart => exact restart_onto p past fuel
  | tick delta => exact tick_onto p past fuel delta
  | update delta =>
      rw [obey, obey, update_onto, Option.map_map, Option.map_map]
      rfl
  | setSequence sequence => exact congrArg some (setSequence_onto p past sequence)
  | setBindings bindings => exact congrArg some (setBindings_onto p past bindings)
  | reconcileBindings => exact congrArg some (reconcileBindings_onto p past)
  | setParameter name value | editParameters edit | editSettings edit => rfl
  | setOverride o index value | setEnabled o index enabled => rfl

/-! ### What a host can tell players apart by -/

end Player

/-- What a host learns from a command. -/
structure Response (H : Host) where
  /-- What happened meanwhile, newest first. -/
  events : List (Event H)
  /-- What the player shows afterwards. -/
  status : Status
  parameters : Parameters
  bindings : Bindings
  /-- The number of steps that an update took. -/
  steps : Option Nat

namespace Player

/-- The number of steps that an update takes. -/
def steps? (fuel : Nat) (p : Player H) : Command H → Option Nat
  | .update delta => (p.update fuel delta).map (·.1)
  | _ => none

/-- What the history tells beyond that of an earlier player. -/
def since (p q : Player H) : List (Event H) :=
  p.playback.history.take (p.playback.history.length - q.playback.history.length)

/-- The player after a command, with the response. -/
def respond (fuel : Nat) (p : Player H) (command : Command H) : Option (Response H × Player H) :=
  (p.obey fuel command).map fun q =>
    (⟨q.since p, q.status, q.playback.parameters, q.playback.bindings, p.steps? fuel command⟩, q)

/-- The responses to one command after the other. -/
def session (fuel : Nat) : List (Command H) → Player H → Option (List (Response H))
  | [], _ => some []
  | command :: rest, p =>
    (p.respond fuel command).bind fun r => (session fuel rest r.2).map (r.1 :: ·)

variable (p : Player H) (past : List (Event H)) (fuel : Nat)

theorem steps?_onto (command : Command H) :
    (p.onto past).steps? fuel command = p.steps? fuel command := by
  cases command with
  | update delta =>
      rw [steps?, steps?, update_onto, Option.map_map]
      rfl
  | _ => rfl

theorem since_onto (q : Player H) : (p.onto past).since (q.onto past) = p.since q := by
  simp only [since, onto, Playback.onto, List.length_append, Nat.add_sub_add_right]
  exact List.take_append_of_le_length (Nat.sub_le _ _)

theorem respond_onto (command : Command H) :
    (p.onto past).respond fuel command
      = (p.respond fuel command).map fun r => (r.1, r.2.onto past) := by
  rw [respond, respond, obey_onto, steps?_onto, Option.map_map, Option.map_map]
  congr 1
  funext q
  simp only [Function.comp_apply, since_onto, status_onto]
  rfl

theorem session_onto (commands : List (Command H)) :
    (p.onto past).session fuel commands = p.session fuel commands := by
  induction commands generalizing p with
  | nil => rfl
  | cons command rest ih =>
      rw [session, session, respond_onto]
      rcases p.respond fuel command with _ | ⟨response, q⟩
      · rfl
      · exact congrArg (Option.map _) (ih q)

/-! ### Players alike -/

/-- Two players of the same sequence, with the same settings, parameters and bindings. -/
structure Alike (p q : Player H) : Prop where
  sequence : p.sequence = q.sequence
  settings : p.settings = q.settings
  parameters : p.playback.parameters = q.playback.parameters
  bindings : p.playback.bindings = q.playback.bindings

namespace Alike

variable {p q r : Player H}

theorem refl (p : Player H) : p.Alike p := ⟨rfl, rfl, rfl, rfl⟩

theorem symm (h : p.Alike q) : q.Alike p :=
  ⟨h.sequence.symm, h.settings.symm, h.parameters.symm, h.bindings.symm⟩

theorem trans (h : p.Alike q) (h' : q.Alike r) : p.Alike r :=
  ⟨h.sequence.trans h'.sequence, h.settings.trans h'.settings, h.parameters.trans h'.parameters,
    h.bindings.trans h'.bindings⟩

theorem stop (p : Player H) : p.stop.Alike p where
  sequence := (keeps_stop p).sequence
  settings := by
    unfold Player.stop
    split <;> rfl
  parameters := stop_parameters
  bindings := (keeps_stop p).bindings

theorem conclude (p : Player H) (progress : Progress) : (p.conclude progress).Alike p := by
  have hsettings : (p.conclude progress).settings = p.settings := by
    rcases p.conclude_cases progress with ⟨-, hend⟩ | ⟨-, -, hend⟩ | ⟨-, -, hend⟩
    · rw [hend]
      exact (stop _).settings
    · rw [hend]
      rfl
    · rw [hend]
  exact ⟨(keeps_conclude p progress).sequence, hsettings, conclude_parameters p progress,
    (keeps_conclude p progress).bindings⟩

/-- Of what alike players have in common, a step can only change the parameters. -/
theorem of_step {p' : Player H} {fuel : Nat} (h : p.step fuel = some p')
    (hparameters : p'.playback.parameters = p.playback.parameters) : p'.Alike p := by
  rcases step_cases h with ⟨-, rfl⟩ | ⟨run, progress, run', playback, -, hreturns, rfl⟩
  · exact refl p'
  · have hend := conclude { p with run := some run', playback } progress
    exact ⟨hend.sequence, hend.settings, hparameters,
      hend.bindings.trans hreturns.bindings⟩

theorem of_play {p' : Player H} {fuel : Nat} (h : p.play fuel = some p')
    (hparameters : p'.playback.parameters = p.playback.parameters) : p'.Alike p := by
  rw [play_eq] at h
  split at h
  · cases h
    exact refl p
  · have hstarted : p.started.Alike p := ⟨rfl, rfl, rfl, rfl⟩
    exact (of_step h hparameters).trans hstarted

theorem of_tick {p' : Player H} {fuel : Nat} {delta : Float} (h : p.tick fuel delta = some p')
    (hparameters : p'.playback.parameters = p.playback.parameters) : p'.Alike p := by
  rw [tick_eq] at h
  split at h
  · have hlater : (p.later delta).Alike p := ⟨rfl, rfl, rfl, rfl⟩
    exact (of_step h hparameters).trans hlater
  · cases h
    exact refl p

end Alike

/-! ### Runs -/

/-- Two players that a host cannot tell apart: since their pasts the same has happened to both, they
show the same and are still alike, and they respond to any commands in the same way. -/
structure Indistinct (past past' : List (Event H)) (p q : Player H) : Prop where
  events : ∃ events, p.playback.history = events ++ past ∧ q.playback.history = events ++ past'
  status : p.status = q.status
  alike : p.Alike q
  session : ∀ fuel commands, p.session fuel commands = q.session fuel commands

theorem indistinct_onto (p : Player H) (past past' : List (Event H)) :
    Indistinct past past' (p.onto past) (p.onto past') where
  events := ⟨p.playback.history, rfl, rfl⟩
  status := rfl
  alike := ⟨rfl, rfl, rfl, rfl⟩
  session := fun fuel commands => by rw [session_onto, session_onto]

/-- The player without its history. -/
def blank (p : Player H) : Player H := { p with playback := { p.playback with history := [] } }

variable {p q : Player H}

/-- The start of a run sets anew all that differs between alike players but for the history. -/
theorem Alike.started (h : p.Alike q) : p.blank.started = q.blank.started := by
  obtain ⟨hsequence, hsettings, hparameters, hbindings⟩ := h
  simp [blank, Player.started, record, Playback.record, hsequence, hsettings, hparameters,
    hbindings]

theorem Alike.play (h : p.Alike q) (hp : p.isPlaying = false) (hq : q.isPlaying = false)
    (fuel : Nat) :
    Option.Rel (Indistinct p.playback.history q.playback.history) (p.play fuel) (q.play fuel) := by
  -- from here on both are the same player, with two pasts
  have hp' : p.started = p.blank.started.onto p.playback.history := rfl
  have hq' : q.started = q.blank.started.onto q.playback.history := rfl
  rw [play_eq, play_eq, hp, hq, hp', hq', h.started, step_onto, step_onto]
  rcases q.blank.started.step fuel with _ | r
  · exact .none
  · exact .some (indistinct_onto r _ _)

/-- The player when a restart has given up its run, in front of the next one. -/
def cleared (p : Player H) : Player H := (p.record (.noticed (.restarting p.sequence.name))).stop

theorem restart_eq (fuel : Nat) (p : Player H) : p.restart fuel = p.cleared.play fuel := rfl

theorem alike_cleared (p : Player H) : p.cleared.Alike p := by
  have hstop := Alike.stop (p.record (.noticed (.restarting p.sequence.name)))
  exact ⟨hstop.sequence, hstop.settings, hstop.parameters, hstop.bindings⟩

/-- Whoever is told of a stop sees the clock as it was. -/
theorem status_stop (h : p.isPlaying = true) :
    p.stop.status = ⟨.stopped, none, p.playback.clock⟩ := by
  have hclock : p.stop.playback.clock = p.playback.clock := by
    unfold stop
    rw [h]
    exact (Playback.Stretch.abandon p.playback p.held).clock
  rw [status, currentIndex, stop_phase h, stop_run h, hclock]
  rfl

/-- Events of the end of a run that is given up, if there is one: no node is invoked and no task
polled, and the host is told once that the player stopped. -/
structure Closes (p : Player H) (events : List (Event H)) : Prop where
  closing : ∀ e ∈ events, e.isClosing = true
  signals : events.filter Event.isSignal =
    if p.isPlaying then [.stopped ⟨.stopped, none, p.playback.clock⟩] else []

/-- A restart closes the run, and then begins the next one as `play` does. -/
theorem exists_closes (p : Player H) : ∃ events,
    p.cleared.playback.history = events ++ p.playback.history ∧ p.Closes events := by
  obtain ⟨events, heq, hclosing, hsignals⟩ :=
    p.history_stop (n := .restarting p.sequence.name) rfl
  refine ⟨events, heq, hclosing, ?_⟩
  rw [hsignals]
  split
  · rename_i hplaying
    let asked := p.record (.noticed (.restarting p.sequence.name))
    exact congrArg (fun status => [Event.stopped status]) (status_stop (p := asked) hplaying)
  · rfl

/-- **Runs do not leak.** Take two players of the same sequence with the same settings, parameters
and bindings, whatever was done to each of them before, running or not. If both begin a run, then
the same happens in its first step, or the step comes to no end for either. After that they show the
same, and respond to any further commands in the same way: with the same events, of which the
invocations tell in their order and with the resolved values, the same status, parameters and
bindings, and the same number of steps in an update. A restart begins such a run too, after it has
closed the one before. -/
theorem rerun_alike (h : p.Alike q) :
    (p.isPlaying = false → q.isPlaying = false → ∀ fuel,
      Option.Rel (Indistinct p.playback.history q.playback.history) (p.play fuel) (q.play fuel)) ∧
    ∃ closing closing', p.Closes closing ∧ q.Closes closing' ∧ ∀ fuel,
      Option.Rel (Indistinct (closing ++ p.playback.history) (closing' ++ q.playback.history))
        (p.restart fuel) (q.restart fuel) := by
  refine ⟨h.play, ?_⟩
  obtain ⟨closing, heq, hcloses⟩ := exists_closes p
  obtain ⟨closing', heq', hcloses'⟩ := exists_closes q
  refine ⟨closing, closing', hcloses, hcloses', fun fuel => ?_⟩
  have hcleared : p.cleared.Alike q.cleared :=
    (alike_cleared p).trans (h.trans (alike_cleared q).symm)
  rw [restart_eq, restart_eq, ← heq, ← heq']
  exact hcleared.play (isPlaying_stop _) (isPlaying_stop _) fuel

/-- A vigil that is under way cannot be told from a new one once both are restarted; nor can it when
it is stopped, and both begin. -/
theorem rerun_alike_vigil :
    ∃ (p r r' u u' : Player Host.none) (closing closing' : List (Event Host.none)),
      p.Reachable ∧ p.heldTickets = [0, 2, 4] ∧ p.Alike (Player.new vigil) ∧
      (p.Closes closing ∧ (Player.new vigil).Closes closing' ∧
        p.restart 9 = some r ∧ (Player.new vigil).restart 9 = some r' ∧
        Indistinct (closing ++ p.playback.history) closing' r r') ∧
      p.stop.Alike (Player.new vigil) ∧
      p.stop.play 9 = some u ∧ (Player.new vigil).play 9 = some u' ∧
      Indistinct p.stop.playback.history [] u u' := by
  have hcomputed : ((Player.new vigil).play 9).bind (fun q => (q.tick 9 0.5).map fun p =>
      (q.playback.parameters, p.playback.parameters, p.heldTickets, (p.restart 9).isSome,
        (p.stop.play 9).isSome, ((Player.new vigil).restart 9).isSome))
      = some ({}, {}, [0, 2, 4], true, true, true) := by decide +kernel
  have hnew : (Player.new vigil).Reachable := .new vigil {}
  have hidle : (Player.new vigil).isPlaying = false := rfl
  have hparameters : (Player.new vigil).playback.parameters = {} := rfl
  have hhistory : (Player.new vigil).playback.history = [] := rfl
  generalize Player.new vigil = new at *
  obtain ⟨u', hplay, htick⟩ := Option.bind_eq_some_iff.mp hcomputed
  obtain ⟨p, htick, hvalues⟩ := Option.map_eq_some_iff.mp htick
  simp only [Prod.mk.injEq, Option.isSome_iff_exists] at hvalues
  obtain ⟨hu', hp, hheld, ⟨r, hr⟩, ⟨u, hu⟩, r', hr'⟩ := hvalues
  have hreachable : p.Reachable := by
    have hobeyAll : new.obeyAll 9 [.play, .tick 0.5] = some p := by
      simp [obeyAll, obey, hplay, htick]
    exact hnew.obeyAll hobeyAll
  have halike : p.Alike new :=
    (Alike.of_tick htick (hp.trans hu'.symm)).trans (.of_play hplay (hu'.trans hparameters.symm))
  have hstopped : p.stop.Alike new := (Alike.stop p).trans halike
  obtain ⟨-, closing, closing', hcloses, hcloses', hruns⟩ := rerun_alike halike
  have hrun := hruns 9
  have hagain := (rerun_alike hstopped).1 (isPlaying_stop p) hidle 9
  rw [hr, hr', hhistory, List.append_nil] at hrun
  rw [hu, hplay, hhistory] at hagain
  cases hrun with
  | some hrun =>
  cases hagain with
  | some hagain =>
  exact ⟨p, r, r', u, u', closing, closing', hreachable, hheld, halike,
    ⟨hcloses, hcloses', hr, hr', hrun⟩, hstopped, hu, hplay, hagain⟩

end Player

end Sequencer
