import Mathlib.Algebra.Order.BigOperators.Group.List
import Mathlib.Algebra.Order.Ring.Rat
import Sequencer.Proofs.Player.LifeCycle
import Sequencer.Proofs.Player.Stepping

/-!
# Sequencer.Proofs.Player.Timekeeping

What becomes of the host's time at a fixed timestep.

A player's own backlog is rounded in each step. For an account of it the time has to be exact, so a
player is put beside a backlog of any ordered group (`Player.paced`): the steps are those of the
player, the loop is that of `update`, and a stop forgets this backlog as it does the other. As long
as no rounding takes place in the player's own backlog, the two are one (`update_paced`), and the
account of the one is that of the other (`update_sound`).

All time is stepped through or kept, other than what is left when the limit on the steps of an
update is reached (`time_kept_iff`). That is lost even if it is less than a step
(`remainder_lost`).
-/

namespace Sequencer

variable {H : Host}

namespace Player

variable {p q : Player H} {fuel n : Nat} {delta : Float}

/-! ### The backlog in a tick -/

/-- A stop forgets the backlog; nothing else in a step changes it. -/
theorem backlog_conclude (hplaying : p.isPlaying = true) (progress : Progress) :
    (p.conclude progress).backlog
      = if (p.conclude progress).phase = .stopped then 0.0 else p.backlog := by
  rcases p.conclude_cases progress with ⟨-, hend⟩ | ⟨-, -, hend⟩ | ⟨-, -, hend⟩
  · let asked := p.record (.noticed (.stopRequested p.sequence.name))
    have hasked : asked.isPlaying = true := hplaying
    rw [hend, if_pos (stop_phase hasked)]
    change asked.stop.backlog = 0.0
    rw [stop, if_pos hasked]
    rfl
  · rw [hend, if_neg]
    · rfl
    · rw [finish_phase]
      decide
  · rw [hend, if_neg]
    rw [phase_of_isPlaying hplaying]
    decide

theorem backlog_tick (hplaying : p.isPlaying = true) (h : p.tick fuel delta = some q) :
    q.backlog = if q.phase = .stopped then 0.0 else p.backlog := by
  rw [tick_eq, if_pos hplaying] at h
  rcases step_cases h with ⟨-, rfl⟩ | ⟨run, progress, run', playback, -, -, rfl⟩
  · have hphase : (p.later delta).phase = .running := phase_of_isPlaying hplaying
    rw [hphase, if_neg (by decide)]
    rfl
  · let stepped : Player H := { p.later delta with run := some run', playback }
    exact backlog_conclude (p := stepped) hplaying progress

/-! ### A player with an exact backlog -/

section Paced

variable {τ : Type}

/-- A player, with a backlog beside it that the player's own does not matter to. -/
def paced [Zero τ] (fuel : Nat) (delta : Float) : Stepped (Player H × τ) τ where
  running s := s.1.isPlaying
  backlog := Prod.snd
  withBacklog s backlog := (s.1, backlog)
  step s := (s.1.tick fuel delta).map fun p => (p, if p.phase = .stopped then 0 else s.2)

theorem steady_paced [Zero τ] : (paced fuel delta : Stepped (Player H × τ) τ).Steady where
  backlog_withBacklog _ _ := rfl
  running_withBacklog _ _ := rfl
  backlog_step := by
    rintro s s' hstep hrunning
    obtain ⟨p, -, rfl⟩ := Option.map_eq_some_iff.mp hstep
    have hphase : p.phase = .running := phase_of_isPlaying hrunning
    simp [paced, hphase]

/-- A player and the same with an exact backlog beside it, which tells the player's own backlog in
its way. -/
structure Paces (S : Float → τ → Prop) (p : Player H) (s : Player H × τ) : Prop where
  player : p.caughtUp = s.1.caughtUp
  backlog : S p.backlog s.2

theorem abreast_paced [Zero τ] {S : Float → τ → Prop} (hzero : S 0.0 0) :
    (stepped (H := H) fuel delta).Abreast (paced fuel delta) (Paces S) S where
  running {p s} h := by
    change p.caughtUp.isPlaying = s.1.caughtUp.isPlaying
    rw [h.player]
  backlog h := h.backlog
  withBacklog h hb := ⟨h.player, hb⟩
  step := by
    intro p s h hplaying
    have hplayers : (p.tick fuel delta).map caughtUp = (s.1.tick fuel delta).map caughtUp := by
      rw [← tick_caughtUp, h.player, tick_caughtUp]
    change Option.Rel (Paces S) (p.tick fuel delta) ((s.1.tick fuel delta).map _)
    cases htick : p.tick fuel delta with
    | none =>
        rw [htick] at hplayers
        rw [Option.map_eq_none_iff.mp hplayers.symm]
        exact .none
    | some q =>
        rw [htick] at hplayers
        obtain ⟨q', htick', heq⟩ := Option.map_eq_some_iff.mp hplayers.symm
        rw [htick']
        refine .some ⟨heq.symm, ?_⟩
        -- the two ticks end in the same phase, so that both backlogs are forgotten or neither is
        have hphase : q.phase = q'.phase := (congrArg (·.phase) heq).symm
        rw [backlog_tick hplaying htick, hphase]
        dsimp only
        split
        · exact hzero
        · exact h.backlog

/-- The exact backlog tells the player's own if the additions and subtractions of the update are
exact: then the update takes the same steps, and leaves what it leaves. -/
theorem update_paced [Zero τ] [Add τ] [Sub τ] [LE τ] [DecidableLE τ] {S : Float → τ → Prop}
    (hzero : S 0.0 0) {timestep : Float} {timestep' : τ}
    (hcounts : Stepped.Counts S timestep timestep') (hplaying : p.isPlaying = true)
    (htimestep : p.timestep? = some timestep) {b time : τ}
    (hcredit : S (p.backlog + p.settings.scaledDelta delta) (b + time)) :
    Option.Rel
      (fun r d => r.1 = d.steps ∧ S r.2.backlog d.state.2 ∧
        ∃ dropped, r.2.caughtUp = (d.state.1.told dropped).caughtUp ∧
          Option.Rel S dropped d.dropped)
      (p.update fuel delta)
      ((paced fuel timestep).elapse timestep' 0 p.allowance time (p, b)) := by
  have hstart : Paces S { p with backlog := p.backlog + p.settings.scaledDelta delta }
      (p, b + time) := ⟨rfl, hcredit⟩
  have habreast : (stepped (H := H) fuel timestep).Abreast (paced fuel timestep) (Paces S) S :=
    abreast_paced hzero
  have hdrain := habreast.drain (fun _ _ => rfl) hcounts hzero hstart 0 p.allowance
  rw [update_of_fixed hplaying htimestep]
  refine Stepped.rel_map_left hdrain ?_
  rintro d d' ⟨⟨hplayer, hbacklog⟩, hsteps, hdropped⟩
  refine ⟨hsteps, ?_, d.dropped, ?_, hdropped⟩
  · cases hd : d.dropped <;> exact hbacklog
  · cases hd : d.dropped with
    | none => exact hplayer
    | some seconds => exact congrArg (·.record (.noticed (.backlogDropped seconds))) hplayer

/-- Half seconds, as floats and exactly. They count in steps of a second. -/
def halfSeconds : List (Float × ℚ) := [(0.0, 0), (0.5, 1 / 2), (1.0, 1), (1.5, 3 / 2)]

example : ∀ r ∈ halfSeconds, ((1.0 : Float) ≤ r.1 ↔ (1 : ℚ) ≤ r.2) ∧
    ((1.0 : Float) ≤ r.1 → ∃ r' ∈ halfSeconds, r' = (r.1 - 1.0, r.2 - 1)) := by
  decide +kernel

end Paced

/-! ### The account -/

section Account

variable {τ : Type} [AddCommGroup τ] [LinearOrder τ] [IsOrderedAddMonoid τ]

/-- **Time is lost at the limit only, and always there.** Let a player with an exact backlog update
again and again with a fixed timestep, and be running after each update. An update takes no more
steps than it is allowed, and keeps all that is left of the time if it takes fewer, or if nothing is
left; in no other case does it keep it. The time that has passed is what was stepped through, what
is kept and what the updates have lost, and they have lost none exactly if each of them took fewer
steps than it was allowed, or came out even. -/
theorem time_kept_iff {timestep : τ} {s s' : Player H × τ} {stints : List (Stepped.Stint τ)}
    (hcourse : (paced fuel delta).Course timestep s stints s') (hs : 0 ≤ s.2)
    (htime : ∀ u ∈ stints, 0 ≤ u.time) :
    (∀ u ∈ stints, u.steps ≤ u.allowed ∧ 0 ≤ u.lost timestep ∧
      (u.after = u.remainder timestep ↔
        u.steps < u.allowed ∨ u.remainder timestep = 0)) ∧
    s.2 + (stints.map (·.time)).sum
      = (stints.map (·.steps)).sum • timestep + s'.2
        + (stints.map (Stepped.Stint.lost timestep)).sum ∧
    (s.2 + (stints.map (·.time)).sum = (stints.map (·.steps)).sum • timestep + s'.2 ↔
      ∀ u ∈ stints, u.steps < u.allowed ∨ u.remainder timestep = 0) := by
  have hsound := hcourse.sound steady_paced hs htime
  have hbalance : s.2 + (stints.map (·.time)).sum
      = (stints.map (·.steps)).sum • timestep + s'.2
        + (stints.map (Stepped.Stint.lost timestep)).sum := hcourse.balance
  refine ⟨fun u hu => ⟨(hsound u hu).steps_le, (hsound u hu).lost_nonneg,
    (hsound u hu).after_eq_iff⟩, hbalance, ?_⟩
  rw [hbalance, add_eq_left]
  constructor
  · intro hsum u hu
    have hnonneg : ∀ x ∈ stints.map (Stepped.Stint.lost timestep), 0 ≤ x :=
      List.forall_mem_map.mpr fun u hu => (hsound u hu).lost_nonneg
    have hnone : u.lost timestep = 0 :=
      List.all_zero_of_le_zero_le_of_sum_eq_zero hnonneg hsum (List.mem_map_of_mem hu)
    exact (hsound u hu).after_eq_iff.mp (sub_eq_zero.mp hnone).symm
  · intro hkept
    refine List.sum_eq_zero (List.forall_mem_map.mpr fun u hu => ?_)
    exact sub_eq_zero.mpr ((hsound u hu).after_eq_iff.mpr (hkept u hu)).symm

/-- The account of an update of the player itself, as long as its own arithmetic is exact. -/
theorem update_sound {S : Float → τ → Prop} (hzero : S 0.0 0) {timestep : Float} {timestep' : τ}
    (hcounts : Stepped.Counts S timestep timestep') (hplaying : p.isPlaying = true)
    (htimestep : p.timestep? = some timestep) {b time : τ}
    (hcredit : S (p.backlog + p.settings.scaledDelta delta) (b + time)) (hb : 0 ≤ b)
    (htime : 0 ≤ time) (h : p.update fuel delta = some (n, q)) (hrunning : q.isPlaying = true) :
    ∃ b', S q.backlog b' ∧ (Stepped.Stint.mk time p.allowance n b b').Sound timestep' := by
  have hagree : Option.Rel _ (p.update fuel delta) _ :=
    update_paced hzero hcounts hplaying htimestep hcredit
  rw [h] at hagree
  generalize helapse : (paced fuel timestep).elapse timestep' 0 p.allowance time (p, b)
    = outcome at hagree
  cases hagree with
  | @some _ d hvalues =>
      obtain ⟨rfl, hbacklog, dropped, hplayer, -⟩ := hvalues
      have hrunning' : d.state.1.isPlaying = true := by
        have hsame : q.isPlaying = (d.state.1.told dropped).isPlaying :=
          congrArg (·.isPlaying) hplayer
        rwa [hsame, isPlaying_told] at hrunning
      exact ⟨d.state.2, hbacklog, Stepped.elapse_sound steady_paced helapse hrunning' hb htime⟩

end Account

/-- An update of one second and a half, and one of another half. -/
def halves : List (Stepped.Stint ℚ) := [⟨3 / 2, 1, 1, 0, 0⟩, ⟨1 / 2, 1, 0, 0, 1 / 2⟩]

/-- With a limit of one step half a second is lost in the first of two updates, and none in the
second. -/
theorem time_kept_slumber :
    ∃ (p : Player Host.none) (s' : Player Host.none × ℚ), p.Reachable ∧ p.isPlaying = true ∧
      (paced 9 1.0).Course 1 (p, 0) halves s' ∧
      (∀ u ∈ halves, u.after = u.remainder 1 ↔ u.steps < u.allowed ∨ u.remainder 1 = 0) ∧
      0 + (halves.map (·.time)).sum
        = (halves.map (·.steps)).sum • 1 + s'.2 + (halves.map (Stepped.Stint.lost 1)).sum ∧
      s'.2 = 1 / 2 ∧ halves.map (Stepped.Stint.lost 1) = [1 / 2, 0] := by
  have hcomputed : ((new slumber).play 9).bind (fun p =>
      ((paced 9 1.0).elapse (1 : ℚ) 0 1 (3 / 2) (p, 0)).bind fun d =>
        ((paced 9 1.0).elapse 1 0 1 (1 / 2) d.state).map fun d' => decide
          (p.isPlaying = true ∧ d.steps = 1 ∧ d.state.2 = 0 ∧ d.state.1.isPlaying = true ∧
            d'.steps = 0 ∧ d'.state.2 = 1 / 2 ∧ d'.state.1.isPlaying = true))
      = some true := by decide +kernel
  obtain ⟨p, hplay, hrest⟩ := Option.bind_eq_some_iff.mp hcomputed
  obtain ⟨d, hfirst, hrest⟩ := Option.bind_eq_some_iff.mp hrest
  obtain ⟨d', hsecond, hvalues⟩ := Option.map_eq_some_iff.mp hrest
  obtain ⟨hplaying, hsteps, hbacklog, hrunning, hsteps', hbacklog', hrunning'⟩ :=
    of_decide_eq_true hvalues
  have hcourse := Stepped.Course.next hfirst hrunning (.next hsecond hrunning' (.none d'.state))
  change (paced 9 1.0).Course 1 (p, 0) [⟨3 / 2, 1, d.steps, 0, d.state.2⟩,
    ⟨1 / 2, 1, d'.steps, d.state.2, d'.state.2⟩] d'.state at hcourse
  rw [hsteps, hsteps', hbacklog, hbacklog'] at hcourse
  have htime : ∀ u ∈ halves, 0 ≤ u.time := by decide +kernel
  obtain ⟨hupdates, hbalance, -⟩ := time_kept_iff (s := (p, 0)) hcourse le_rfl htime
  exact ⟨p, d'.state, .played (.new slumber {}) hplay, hplaying, hcourse,
    fun u hu => (hupdates u hu).2.2, hbalance, hbacklog', by decide +kernel⟩

/-- An update of a second and a half at the limit of one step: half a second is left, which is less
than a step, and nothing of it is kept. -/
theorem remainder_lost :
    ∃ p p' : Player Host.none, p.Reachable ∧ p.isPlaying = true ∧ p.timestep? = some 1.0 ∧
      p.settings.maxStepsPerUpdate = 1 ∧ p.update 9 1.5 = some (1, p') ∧ p'.isPlaying = true ∧
      p.backlog + p.settings.scaledDelta 1.5 - 1.0 = 0.5 ∧ (0.5 : Float) < 1.0 ∧
      p'.backlog = 0.0 := by
  have hcomputed : ((new slumber (secondly 1)).play 9).bind (fun p =>
      (p.update 9 1.5).map fun r => decide
        (p.isPlaying = true ∧ p.timestep? = some 1.0 ∧ p.settings.maxStepsPerUpdate = 1 ∧
          r.1 = 1 ∧ r.2.isPlaying = true ∧
          p.backlog + p.settings.scaledDelta 1.5 - 1.0 = 0.5 ∧ (0.5 : Float) < 1.0 ∧
          r.2.backlog = 0.0))
      = some true := by decide +kernel
  obtain ⟨p, hplay, hrest⟩ := Option.bind_eq_some_iff.mp hcomputed
  obtain ⟨⟨n, p'⟩, hupdate, hvalues⟩ := Option.map_eq_some_iff.mp hrest
  obtain ⟨hplaying, htimestep, hlimit, rfl, hrest⟩ := of_decide_eq_true hvalues
  exact ⟨p, p', .played (.new slumber _) hplay, hplaying, htimestep, hlimit, hupdate, hrest⟩

end Player

end Sequencer
