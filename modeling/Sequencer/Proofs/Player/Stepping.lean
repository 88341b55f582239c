import Sequencer.Proofs.Player.Backlog
import Sequencer.Proofs.Player.Tickets
import Sequencer.Proofs.Timing.Playing

/-!
# Sequencer.Proofs.Player.Stepping

An update is made of ticks. The time that a player has waited for decides how many there are, and
nothing else depends on it (`Player.caughtUp`). So an update leaves what so many ticks leave
(`update_ticks`), and of a player that is still running it takes all the steps that are due.

The limit on the steps of an update is looked at after a step. It holds unless it is zero
(`update_limited`).
-/

namespace Sequencer

open Float.Model (UnpackedFloat)

variable {H : Host}

/-- Of a positive time there is none in no time. -/
theorem not_le_of_pos {t : Float} (h : 0.0 < t) : ¬ t ≤ 0.0 := by
  have hz : (0.0 : Float).toModel.unpack = .zero .positive := rfl
  change decide ((0.0 : Float).toModel < t.toModel) = true at h
  change ¬ decide (t.toModel ≤ (0.0 : Float).toModel) = true
  rw [decide_eq_true_iff] at h ⊢
  change UnpackedFloat.lt (0.0 : Float).toModel.unpack t.toModel.unpack = true at h
  change ¬ UnpackedFloat.le t.toModel.unpack (0.0 : Float).toModel.unpack = true
  rw [hz] at h ⊢
  generalize t.toModel.unpack = u at h ⊢
  cases u with
  | zero | notANumber => cases h
  | infinity sign =>
      cases sign with
      | negative => cases h
      | positive => exact Bool.false_ne_true
  | finite sign =>
      cases sign with
      | negative => cases h
      | positive => exact Bool.false_ne_true

namespace Player

/-! ### Apart from the backlog -/

/-- The player without a backlog. -/
def caughtUp (p : Player H) : Player H := { p with backlog := 0.0 }

variable (p : Player H) (fuel : Nat)

@[simp] theorem isPlaying_caughtUp : p.caughtUp.isPlaying = p.isPlaying := rfl

@[simp] theorem later_caughtUp (delta : Float) :
    p.caughtUp.later delta = (p.later delta).caughtUp := rfl

@[simp] theorem finish_caughtUp : p.caughtUp.finish = p.finish.caughtUp := rfl

@[simp] theorem stop_caughtUp : p.caughtUp.stop = p.stop.caughtUp := by
  unfold stop
  rw [isPlaying_caughtUp]
  split <;> rfl

theorem conclude_caughtUp (progress : Progress) :
    p.caughtUp.conclude progress = (p.conclude progress).caughtUp := by
  have hstop := stop_caughtUp (p.record (.noticed (.stopRequested p.sequence.name)))
  unfold conclude
  rw [apply_ite caughtUp, apply_ite caughtUp, ← hstop, ← finish_caughtUp]
  rfl

theorem step_caughtUp : p.caughtUp.step fuel = (p.step fuel).map caughtUp := by
  rw [step_eq, step_eq]
  rw [show p.caughtUp.run = p.run from rfl, show p.caughtUp.playback = p.playback from rfl]
  rcases p.run with _ | run
  · rfl
  · dsimp only
    rw [Option.map_map]
    congr 1
    funext r
    exact conclude_caughtUp { p with run := some r.2.1, playback := r.2.2 } r.1

theorem tick_caughtUp (delta : Float) :
    p.caughtUp.tick fuel delta = (p.tick fuel delta).map caughtUp := by
  rw [tick_eq, tick_eq, isPlaying_caughtUp, later_caughtUp, step_caughtUp]
  split <;> rfl

variable {p fuel} {q r : Player H} {n : Nat} {delta : Float}

/-- Two players that differ in the backlog only differ in nothing else after a tick. -/
theorem exists_tick_of_caughtUp (heq : r.caughtUp = p.caughtUp) (h : p.tick fuel delta = some q) :
    ∃ q', r.tick fuel delta = some q' ∧ q'.caughtUp = q.caughtUp := by
  have hmap : (r.tick fuel delta).map caughtUp = some q.caughtUp := by
    rw [← tick_caughtUp, heq, tick_caughtUp, h, Option.map_some]
  exact Option.map_eq_some_iff.mp hmap

/-! ### One tick -/

theorem clock_conclude (p : Player H) (progress : Progress) :
    (p.conclude progress).playback.clock = p.playback.clock := by
  have hstop (p : Player H) : p.stop.playback.clock = p.playback.clock := by
    unfold stop
    split
    · exact (Playback.Stretch.abandon p.playback p.held).clock
    · rfl
  rcases p.conclude_cases progress with ⟨-, hend⟩ | ⟨-, -, hend⟩ | ⟨-, -, hend⟩
  · rw [hend, hstop]
    rfl
  · rw [hend]
    exact (Playback.Stretch.abandon p.playback p.held).clock
  · rw [hend]

theorem clock_step (h : p.step fuel = some q) : q.playback.clock = p.playback.clock := by
  rcases step_cases h with ⟨-, rfl⟩ | ⟨run, progress, run', playback, -, hreturns, rfl⟩
  · rfl
  · obtain ⟨is, hstretch, -⟩ := hreturns.covers
    exact (clock_conclude _ progress).trans hstretch.clock

theorem clock_tick (hplaying : p.isPlaying = true) (h : p.tick fuel delta = some q) :
    q.playback.clock = p.playback.clock.advance delta := by
  rw [tick_eq, if_pos hplaying] at h
  exact clock_step h

/-! ### So many ticks -/

/-- So many ticks lead from the one player to the other, and each of them finds the player
running. -/
def Marches (fuel n : Nat) (delta : Float) (p q : Player H) : Prop :=
  p.ticks fuel (.replicate n delta) = some q ∧
    ∀ k < n, (p.ticks fuel (.replicate k delta)).map isPlaying = some true

namespace Marches

theorem zero (p : Player H) : p.Marches fuel 0 delta p :=
  ⟨rfl, fun _ hk => absurd hk (Nat.not_lt_zero _)⟩

theorem succ_iff : p.Marches fuel (n + 1) delta q ↔
    p.isPlaying = true ∧ ∃ p₁, p.tick fuel delta = some p₁ ∧ p₁.Marches fuel n delta q := by
  constructor
  · rintro ⟨hticks, hplaying⟩
    obtain ⟨p₁, htick, hrest⟩ := Option.bind_eq_some_iff.mp hticks
    refine ⟨Option.some.inj (hplaying 0 n.succ_pos), p₁, htick, hrest, fun k hk => ?_⟩
    have hnext := hplaying (k + 1) (Nat.succ_lt_succ hk)
    rwa [List.replicate_succ, ticks, htick] at hnext
  · rintro ⟨hplaying, p₁, htick, hticks, hrest⟩
    refine ⟨?_, fun k hk => ?_⟩
    · rw [List.replicate_succ, ticks, htick]
      exact hticks
    · cases k with
      | zero => exact congrArg some hplaying
      | succ k =>
          rw [List.replicate_succ, ticks, htick]
          exact hrest k (Nat.lt_of_succ_lt_succ hk)

/-- The clock counts the ticks. -/
theorem frame (h : p.Marches fuel n delta q) :
    q.playback.clock.frame = p.playback.clock.frame + n := by
  induction n generalizing p with
  | zero =>
      obtain rfl : p = q := Option.some.inj h.1
      rfl
  | succ n ih =>
      obtain ⟨hplaying, p₁, htick, hrest⟩ := succ_iff.mp h
      calc q.playback.clock.frame = p₁.playback.clock.frame + n := ih hrest
        _ = p.playback.clock.frame + 1 + n := by rw [clock_tick hplaying htick, Clock.advance]
        _ = p.playback.clock.frame + (n + 1) := by omega

/-- The steps that a backlog calls for are ticks, with another backlog. -/
theorem of_rounds (h : (stepped fuel delta).Rounds delta n p q) (heq : r.caughtUp = p.caughtUp) :
    ∃ q', r.Marches fuel n delta q' ∧ q'.caughtUp = q.caughtUp := by
  induction h generalizing r with
  | none p => exact ⟨r, zero r, heq⟩
  | @next n p p₁ q hdue hstep _ ih =>
      -- the loop ticks a player with a timestep off its backlog, which the tick does not look at
      let charged : Player H := { p with backlog := p.backlog - delta }
      obtain ⟨r₁, htick, heq₁⟩ := exists_tick_of_caughtUp (p := charged) heq hstep
      obtain ⟨q', hrest, heq'⟩ := ih heq₁
      have hplaying : r.isPlaying = true := by
        rw [← isPlaying_caughtUp, heq]
        exact hdue.2
      exact ⟨q', succ_iff.mpr ⟨hplaying, r₁, htick, hrest⟩, heq'⟩

end Marches

/-! ### An update -/

/-- The most steps that an update takes. -/
def allowance (p : Player H) : Nat := max 1 p.settings.maxStepsPerUpdate.toNat

/-- The player with a log entry about the backlog that was given up, if any was. -/
def told (p : Player H) : Option Float → Player H
  | none => p
  | some seconds => p.record (.noticed (.backlogDropped seconds))

@[simp] theorem isPlaying_told (dropped : Option Float) :
    (p.told dropped).isPlaying = p.isPlaying := by
  cases dropped <;> rfl

theorem timestep?_eq_some {timestep : Float} : p.timestep? = some timestep ↔
    (∃ x, p.settings.fixedTimestep = some x ∧ x.toFloat = timestep) ∧ 0.0 < timestep := by
  simp [timestep?, Option.filter_eq_some_iff]

theorem update_of_variable (hplaying : p.isPlaying = true) (hnone : p.timestep? = none) :
    p.update fuel delta = (p.tick fuel (p.settings.scaledDelta delta)).map (1, ·) := by
  rw [update, if_pos hplaying, hnone]

/-- With a fixed timestep, an update lets the scaled time elapse. -/
theorem update_of_fixed {timestep : Float} (hplaying : p.isPlaying = true)
    (htimestep : p.timestep? = some timestep) :
    p.update fuel delta
      = ((stepped fuel timestep).elapse timestep 0.0 p.allowance (p.settings.scaledDelta delta)
          p).map fun d => (d.steps, d.state.told d.dropped) := by
  have helapse : (stepped fuel timestep).elapse timestep 0.0 p.allowance
      (p.settings.scaledDelta delta) p
        = (stepped fuel timestep).drain timestep 0.0 0 (max 1 p.settings.maxStepsPerUpdate.toNat)
          { p with backlog := p.backlog + p.settings.scaledDelta delta } := rfl
  rw [helapse, update, if_pos hplaying, htimestep]
  dsimp only
  rcases (stepped fuel timestep).drain timestep 0.0 0 (max 1 p.settings.maxStepsPerUpdate.toNat)
    { p with backlog := p.backlog + p.settings.scaledDelta delta }
    with _ | ⟨q, steps, _ | seconds⟩ <;> rfl

/-- An update is one tick, or the fixed steps that are due. These end when no more are due, or when
the limit is reached; then the backlog is given up. -/
theorem update_cases {p' : Player H} (hplaying : p.isPlaying = true)
    (h : p.update fuel delta = some (n, p')) :
    p.timestep? = none ∧ n = 1 ∧ p.tick fuel (p.settings.scaledDelta delta) = some p' ∨
    ∃ timestep q, p.timestep? = some timestep ∧
      (stepped fuel timestep).Rounds timestep n
        { p with backlog := p.backlog + p.settings.scaledDelta delta } q ∧
      (n = p.allowance ∧ p' = q.caughtUp.told (some q.backlog) ∨
        n < p.allowance ∧ ¬ (stepped fuel timestep).Due timestep q ∧ p' = q) := by
  cases htimestep : p.timestep? with
  | none =>
      rw [update_of_variable hplaying htimestep] at h
      obtain ⟨q, htick, heq⟩ := Option.map_eq_some_iff.mp h
      cases heq
      exact .inl ⟨rfl, rfl, htick⟩
  | some timestep =>
      rw [update_of_fixed hplaying htimestep] at h
      obtain ⟨d, helapse, heq⟩ := Option.map_eq_some_iff.mp h
      obtain ⟨rfl, rfl⟩ := Prod.mk.inj heq
      obtain ⟨q, hrounds, hend⟩ := Stepped.elapse_cases helapse
      refine .inr ⟨timestep, q, rfl, hrounds, ?_⟩
      rcases hend with ⟨hall, hstate, hdropped⟩ | ⟨hfewer, hdue, hstate, hdropped⟩
      · rw [hstate, hdropped]
        exact .inl ⟨hall, rfl⟩
      · rw [hstate, hdropped]
        exact .inr ⟨hfewer, hdue, rfl⟩

/-- **An update is made of ticks.** Whatever the settings and the time that passed: if an update of
a running player took `n` steps, then `n` ticks, each of which finds the player running, leave the
player that the update leaves; only the backlog may be another, and the log says so if it was given
up at the limit. A tick covers the fixed timestep if the settings have a positive one; else there is
one tick, which covers the scaled time. With a fixed timestep, no further step is due if the player
is still running. -/
theorem update_ticks {p' : Player H} (hplaying : p.isPlaying = true)
    (h : p.update fuel delta = some (n, p')) :
    (∃ q dropped, p.Marches fuel n (p.timestep?.getD (p.settings.scaledDelta delta)) q ∧
      p'.caughtUp = (q.told dropped).caughtUp ∧
      (dropped.isSome = true ↔ p.timestep?.isSome = true ∧ n = p.allowance)) ∧
    p'.playback.clock.frame = p.playback.clock.frame + n ∧
    (p.timestep? = none → n = 1) ∧
    ∀ timestep, p.timestep? = some timestep → p'.isPlaying = true → ¬ timestep ≤ p'.backlog := by
  rcases update_cases hplaying h with
    ⟨hnone, rfl, htick⟩ | ⟨timestep, q, htimestep, hrounds, hend⟩
  · have hmarches : p.Marches fuel 1 (p.settings.scaledDelta delta) p' :=
      Marches.succ_iff.mpr ⟨hplaying, p', htick, .zero p'⟩
    rw [hnone]
    exact ⟨⟨p', none, hmarches, rfl, by simp⟩, hmarches.frame, fun _ => rfl, by simp⟩
  · obtain ⟨q', hmarches, heq⟩ := Marches.of_rounds (r := p) hrounds rfl
    have hframe : q.playback.clock.frame = p.playback.clock.frame + n := by
      rw [← hmarches.frame]
      exact (congrArg (·.playback.clock.frame) heq).symm
    rw [htimestep]
    rcases hend with ⟨hall, rfl⟩ | ⟨hfewer, hdue, rfl⟩
    · -- at the limit the backlog is nothing, and the timestep is positive
      refine ⟨⟨q', some q.backlog, hmarches, ?_, by simp [hall]⟩, hframe, by simp, ?_⟩
      · exact (congrArg (·.record (.noticed (.backlogDropped q.backlog))) heq).symm
      · rintro _ ⟨rfl⟩ -
        exact not_le_of_pos (timestep?_eq_some.mp htimestep).2
    · refine ⟨⟨q', none, hmarches, heq.symm, by simp [hfewer.ne]⟩, hframe, by simp, ?_⟩
      rintro _ ⟨rfl⟩ hrunning hle
      exact hdue ⟨hle, hrunning⟩

theorem Reachable.played (hp : p.Reachable) (h : p.play fuel = some q) : q.Reachable := by
  have hobey : p.obey fuel .play = some q := h
  exact hp.obey hobey

/-- A wait of five frames. -/
def slumber : Sequence Host.none where
  id := ⟨.ofNat 1⟩
  name := "slumber"
  nodes := [.new ⟨.ofNat 1⟩ (.waitFrames 5)]

/-- In 0.625 s there are two steps of 0.25 s, and half of one is left. -/
theorem update_ticks_slumber :
    ∃ p p' q : Player Host.none, p.Reachable ∧ p.isPlaying = true ∧
      p.timestep? = some 0.25 ∧ p.update 9 0.625 = some (2, p') ∧
      p.Marches 9 2 0.25 q ∧ p'.caughtUp = q.caughtUp ∧
      p'.playback.clock.frame = p.playback.clock.frame + 2 ∧
      p'.isPlaying = true ∧ p'.backlog = 0.125 ∧ ¬ (0.25 : Float) ≤ p'.backlog := by
  have hcomputed : ((new slumber (.stepping 0.25)).play 9).bind (fun p =>
      (p.update 9 0.625).map fun r => (p.isPlaying, p.timestep?, p.allowance, r.1, r.2.isPlaying,
        r.2.backlog))
      = some (true, some 0.25, 8, 2, true, 0.125) := by decide +kernel
  obtain ⟨p, hplay, hrest⟩ := Option.bind_eq_some_iff.mp hcomputed
  obtain ⟨⟨n, p'⟩, hupdate, hvalues⟩ := Option.map_eq_some_iff.mp hrest
  simp only [Prod.mk.injEq] at hvalues
  obtain ⟨hplaying, htimestep, hallowance, rfl, hplaying', hbacklog⟩ := hvalues
  have hreachable : p.Reachable := .played (.new slumber _) hplay
  obtain ⟨⟨q, dropped, hmarches, heq, hdropped⟩, hframe, -, hdue⟩ := update_ticks hplaying hupdate
  rw [htimestep] at hmarches hdropped
  obtain rfl : dropped = none := by
    rw [hallowance] at hdropped
    simpa using hdropped
  exact ⟨p, p', q, hreachable, hplaying, htimestep, hupdate, hmarches, heq, hframe, hplaying',
    hbacklog, hdue 0.25 htimestep hplaying'⟩

/-- **The limit on the steps of an update.** No update takes more fixed steps than the settings
allow, unless they allow none: then it takes one if one is due. -/
theorem update_limited {p' : Player H} {timestep : Float} (htimestep : p.timestep? = some timestep)
    (h : p.update fuel delta = some (n, p')) :
    n ≤ max 1 p.settings.maxStepsPerUpdate.toNat ∧
    (p.settings.maxStepsPerUpdate.toNat < n ↔
      p.settings.maxStepsPerUpdate.toNat = 0 ∧ p.isPlaying = true ∧
        timestep ≤ p.backlog + p.settings.scaledDelta delta) := by
  cases hplaying : p.isPlaying with
  | false =>
      rw [update, hplaying, if_neg Bool.false_ne_true] at h
      cases h
      simp
  | true =>
      rcases update_cases hplaying h with ⟨hnone, -⟩ | ⟨_, q, heq, hrounds, hend⟩
      · rw [hnone] at htimestep
        cases htimestep
      · obtain rfl : timestep = _ := Option.some.inj (htimestep.symm.trans heq)
        have hle : n ≤ p.allowance := by
          rcases hend with ⟨hall, -⟩ | ⟨hfewer, -⟩
          · exact hall.le
          · exact hfewer.le
        -- some step is taken exactly if one is due at the start
        have hfirst : 0 < n ↔ timestep ≤ p.backlog + p.settings.scaledDelta delta := by
          cases hrounds with
          | none =>
              rcases hend with ⟨hall, -⟩ | ⟨-, hdue, -⟩
              · rw [allowance] at hall
                omega
              · refine iff_of_false (Nat.lt_irrefl 0) fun hle => hdue ⟨hle, hplaying⟩
          | next hdue _ _ => exact iff_of_true (Nat.succ_pos _) hdue.1
        rw [allowance] at hle
        refine ⟨hle, ?_⟩
        rw [← hfirst]
        simp only [true_and]
        omega

/-- Settings of one second a step, with a limit on the steps. -/
def secondly (limit : UInt32) : Settings :=
  { fixedTimestep := some 1.0, maxStepsPerUpdate := limit }

/-- In 2.5 s with a limit of one step there is one step. -/
theorem update_limited_slumber :
    ∃ p p' : Player Host.none, p.Reachable ∧ p.isPlaying = true ∧ p.timestep? = some 1.0 ∧
      p.update 9 2.5 = some (1, p') ∧ (1 : Nat) ≤ max 1 p.settings.maxStepsPerUpdate.toNat ∧
      ¬ p.settings.maxStepsPerUpdate.toNat < 1 := by
  have hcomputed : ((new slumber (secondly 1)).play 9).bind (fun p =>
      (p.update 9 2.5).map fun r => (p.isPlaying, p.timestep?, p.settings.maxStepsPerUpdate, r.1))
      = some (true, some 1.0, 1, 1) := by decide +kernel
  obtain ⟨p, hplay, hrest⟩ := Option.bind_eq_some_iff.mp hcomputed
  obtain ⟨⟨n, p'⟩, hupdate, hvalues⟩ := Option.map_eq_some_iff.mp hrest
  simp only [Prod.mk.injEq] at hvalues
  obtain ⟨hplaying, htimestep, hlimit, rfl⟩ := hvalues
  have hreachable : p.Reachable := .played (.new slumber _) hplay
  obtain ⟨hle, hbeyond⟩ := update_limited htimestep hupdate
  refine ⟨p, p', hreachable, hplaying, htimestep, hupdate, hle, fun hlt => ?_⟩
  have hnone := (hbeyond.mp hlt).1
  rw [hlimit] at hnone
  cases hnone

/-- No step is allowed, and one is taken. -/
theorem limit_exceeded :
    ∃ p p' : Player Host.none, p.Reachable ∧ p.timestep? = some 1.0 ∧
      p.settings.maxStepsPerUpdate.toNat = 0 ∧ p.update 9 1.0 = some (1, p') ∧
      p'.playback.clock.frame = p.playback.clock.frame + 1 := by
  have hcomputed : ((new slumber (secondly 0)).play 9).bind (fun p =>
      (p.update 9 1.0).map fun r => (p.timestep?, p.settings.maxStepsPerUpdate, r.1,
        r.2.playback.clock.frame, p.playback.clock.frame))
      = some (some 1.0, 0, 1, 1, 0) := by decide +kernel
  obtain ⟨p, hplay, hrest⟩ := Option.bind_eq_some_iff.mp hcomputed
  obtain ⟨⟨n, p'⟩, hupdate, hvalues⟩ := Option.map_eq_some_iff.mp hrest
  simp only [Prod.mk.injEq] at hvalues
  obtain ⟨htimestep, hlimit, rfl, hframe', hframe⟩ := hvalues
  have hreachable : p.Reachable := .played (.new slumber _) hplay
  refine ⟨p, p', hreachable, htimestep, ?_, hupdate, ?_⟩
  · rw [hlimit]
    rfl
  · rw [hframe', hframe]

end Player

end Sequencer
