import Sequencer.Player.Basic
import Sequencer.Proofs.Playback.Adequacy
import Sequencer.Proofs.Timing.Loops

/-!
# Sequencer.Proofs.Timing.Playing

A player that plays a timed sequence. It makes one step when it starts and one in each tick, so it
runs for as many ticks as the sequence has steps (`Player.timed_performance`), whatever time these
cover.
-/

namespace Sequencer

variable {H : Host}

/-! ### What the history tells -/

/-- Between `pb` and `pb'` the history tells of the invocations that the cues name and of these
signals to the host, newest first. -/
def Playback.Tells (pb : Playback H) (σ : List (Cue H)) (signals : List (Event H))
    (pb' : Playback H) : Prop :=
  ∃ events, pb'.history = events ++ pb.history ∧ events.filter Event.isSignal = signals ∧
    ((events.filterMap Event.invocation?).map Invocation.cue).Perm σ

namespace Playback.Tells

theorem refl (pb : Playback H) : pb.Tells [] [] pb := ⟨[], rfl, rfl, .nil⟩

theorem trans {a b c : Playback H} {σ τ : List (Cue H)} {signals signals' : List (Event H)}
    (h : a.Tells σ signals b) (h' : b.Tells τ signals' c) :
    a.Tells (σ ++ τ) (signals' ++ signals) c := by
  obtain ⟨events, heq, hsignals, hσ⟩ := h
  obtain ⟨events', heq', hsignals', hτ⟩ := h'
  refine ⟨events' ++ events, ?_, ?_, ?_⟩
  · rw [heq', heq, List.append_assoc]
  · rw [List.filter_append, hsignals', hsignals]
  · rw [List.filterMap_append, List.map_append]
    exact List.perm_append_comm.trans (hσ.append hτ)

theorem perm {a b : Playback H} {σ τ : List (Cue H)} {signals : List (Event H)}
    (h : a.Tells σ signals b) (hperm : σ.Perm τ) : a.Tells τ signals b := by
  obtain ⟨events, heq, hsignals, hσ⟩ := h
  exact ⟨events, heq, hsignals, hσ.trans hperm⟩

end Playback.Tells

theorem Playback.Plays.tells {pb pb' : Playback H} {σ : List (Cue H)} (h : pb.Plays σ pb') :
    pb.Tells σ [] pb' := by
  obtain ⟨⟨is, hs, hσ⟩, -⟩ := h
  obtain ⟨events, heq, hinvoked, hsignals⟩ := hs.history
  refine ⟨events, heq, ?_, ?_⟩
  · rw [List.filter_eq_nil_iff]
    intro e he
    simp [hsignals e he]
  · rw [hinvoked]
    exact hσ

/-! ### Steps of a player -/

namespace Player

/-- The player after a step of its run, in which no stop was requested. -/
def afterStep (p : Player H) (progress : Progress) (run : SequenceRun H)
    (playback : Playback H) : Player H :=
  if progress.isDone then { p with run := some run, playback }.finish
  else { p with run := some run, playback }

theorem step_computes {p : Player H} {run run' : SequenceRun H} {progress : Progress}
    {playback : Playback H} (hrun : p.run = some run)
    (h : (Job.step run p.playback progress run' playback).Returns)
    (hstop : playback.stopRequested = false) :
    ∃ bound, ∀ fuel, bound ≤ fuel → p.step fuel = some (p.afterStep progress run' playback) := by
  obtain ⟨bound, hcomputes⟩ := h.computes
  refine ⟨bound, fun fuel hfuel => ?_⟩
  rw [step, hrun]
  simp only [hcomputes fuel hfuel, hstop, afterStep, Bool.false_eq_true, ↓reduceIte]
  cases progress.isDone <;> rfl

theorem finish_tells (p : Player H) : p.playback.Tells [] [.finished] p.finish.playback := by
  have habandon := Playback.Plays.abandon p.playback ((p.run.map Run.held).getD [])
  obtain ⟨events, heq, hsignals, hinvoked⟩ := habandon.tells
  let notice : Event H := .noticed (.finished p.sequence.name
    ((p.playback.abandon ((p.run.map Run.held).getD [])).clock.frame + 1))
  refine ⟨.finished :: notice :: events, ?_, ?_, hinvoked⟩
  · rw [List.cons_append, List.cons_append, ← heq]
    rfl
  · rw [List.filter_cons_of_pos rfl, List.filter_cons_of_neg (by simp [notice, Event.isSignal]),
      hsignals]

/-- The player has made its step in frame `f`, and its run takes `n` more. -/
def After (p : Player H) (n f : Nat) (σ : List (Cue H)) : Prop :=
  match n with
  | 0 => p.phase = .idle
  | n + 1 => p.phase = .running ∧ p.playback.InFrame f ∧
    ∃ run, p.run = some run ∧ Lasts Run.Steps n (f + 1) σ run

/-- The step in frame `f` plays the cues of this frame, and the last one tells the host. -/
theorem step_lasts {p : Player H} {run : SequenceRun H} {n f : Nat} {σ : List (Cue H)}
    (hrunning : p.phase = .running) (hrun : p.run = some run) (hframe : p.playback.InFrame f)
    (hlasts : Lasts Run.Steps n f σ run) :
    ∃ bound p', (∀ fuel, bound ≤ fuel → p.step fuel = some p') ∧
      p.playback.Tells (due σ f) (if n = 0 then [.finished] else []) p'.playback ∧
      p'.After n f σ := by
  cases n with
  | zero =>
      obtain ⟨run', pb, hstep, hplays⟩ := hlasts p.playback hframe
      obtain ⟨bound, hbound⟩ := step_computes hrun hstep (hplays.inFrame hframe).2
      refine ⟨bound, _, hbound, ?_, rfl⟩
      have hfinish := finish_tells { p with run := some run', playback := pb }
      have htells := hplays.tells.trans hfinish
      rw [List.append_nil] at htells
      exact htells
  | succ n =>
      obtain ⟨run', pb, hstep, hplays, hrest⟩ := hlasts p.playback hframe
      have hframe' := hplays.inFrame hframe
      obtain ⟨bound, hbound⟩ := step_computes hrun hstep hframe'.2
      exact ⟨bound, _, hbound, hplays.tells, hrunning, hframe', run', rfl, hrest⟩

/-! ### Ticks -/

/-- Lets one delta after the other pass in a tick. -/
def ticks (fuel : Nat) : List Float → Player H → Option (Player H)
  | [], p => some p
  | delta :: rest, p => (p.tick fuel delta).bind (ticks fuel rest)

/-- Without playback nothing happens. -/
theorem ticks_idle {p : Player H} (hidle : p.phase = .idle) (fuel : Nat) (deltas : List Float) :
    p.ticks fuel deltas = some p := by
  induction deltas with
  | nil => rfl
  | cons delta rest ih =>
      have hnone : p.tick fuel delta = some p := by simp [tick, isPlaying, hidle]
      rw [ticks, hnone, Option.bind_some, ih]

end Player

/-- The cues of so many frames from `f` on. -/
def window (σ : List (Cue H)) (f count : Nat) : List (Cue H) :=
  σ.filter fun cue => f ≤ cue.frame ∧ cue.frame < f + count

theorem window_eq_nil {σ : List (Cue H)} {f count : Nat}
    (h : ∀ cue ∈ σ, cue.frame < f ∨ f + count ≤ cue.frame) : window σ f count = [] := by
  rw [window, List.filter_eq_nil_iff]
  intro cue hcue
  have := h cue hcue
  simp only [decide_eq_true_eq]
  omega

theorem due_append_window (σ : List (Cue H)) (f count : Nat) :
    (due σ f ++ window σ (f + 1) count).Perm (window σ f (count + 1)) := by
  have hdue : due σ f = (window σ f (count + 1)).filter (·.frame == f) := by
    rw [due, window, List.filter_filter]
    refine List.filter_congr fun cue _ => ?_
    rw [Bool.eq_iff_iff]
    simp only [beq_iff_eq, Bool.and_eq_true, decide_eq_true_eq]
    omega
  have hrest : window σ (f + 1) count
      = (window σ f (count + 1)).filter fun cue => !(cue.frame == f) := by
    rw [window, window, List.filter_filter]
    refine List.filter_congr fun cue _ => ?_
    rw [Bool.eq_iff_iff]
    simp only [Bool.not_eq_true', beq_eq_false_iff_ne, Bool.and_eq_true, decide_eq_true_eq]
    omega
  rw [hdue, hrest]
  exact List.filter_append_perm _ _

namespace Player

/-- After the step in frame `f`, ticks play the cues of the next frames, one frame each. -/
theorem After.ticks {p : Player H} {n f : Nat} {σ : List (Cue H)} (h : p.After n f σ)
    (hσ : ∀ cue ∈ σ, cue.frame ≤ f + n) (deltas : List Float) :
    ∃ bound p', (∀ fuel, bound ≤ fuel → p.ticks fuel deltas = some p') ∧
      p.playback.Tells (window σ (f + 1) deltas.length)
        (if 0 < n ∧ n ≤ deltas.length then [.finished] else []) p'.playback ∧
      (p'.isPlaying = true ↔ deltas.length < n) := by
  induction deltas generalizing n f p with
  | nil =>
      have hnone : window σ (f + 1) 0 = [] := window_eq_nil fun cue _ => by omega
      refine ⟨0, p, fun _ _ => rfl, ?_, ?_⟩
      · rw [List.length_nil, hnone, if_neg (by omega)]
        exact .refl _
      · cases n with
        | zero => simp [isPlaying, show p.phase = .idle from h]
        | succ n => simp [isPlaying, h.1]
  | cons delta rest ih =>
      cases n with
      | zero =>
          have hnone : window σ (f + 1) (rest.length + 1) = [] := window_eq_nil fun cue hcue =>
            .inl (Nat.lt_succ_of_le (hσ cue hcue))
          refine ⟨0, p, fun fuel _ => ticks_idle h fuel _, ?_, ?_⟩
          · rw [List.length_cons, hnone, if_neg (by omega)]
            exact .refl _
          · simp [isPlaying, show p.phase = .idle from h]
      | succ n =>
          -- The tick moves the clock to the next frame, and then makes the step of this frame.
          obtain ⟨hrunning, hframe, run, hrun, hlasts⟩ := h
          let later : Player H :=
            { p with playback := { p.playback with clock := p.playback.clock.advance delta } }
          have hframe' : later.playback.InFrame (f + 1) := by
            refine ⟨?_, hframe.2⟩
            rw [← hframe.1]
            rfl
          obtain ⟨bound, p₁, hstep, htells, hafter⟩ := step_lasts (p := later) hrunning hrun
            hframe' hlasts
          obtain ⟨bound', p', hticks, htells', hplaying⟩ := ih hafter fun cue hcue => by
            have := hσ cue hcue
            omega
          refine ⟨max bound bound', p', fun fuel hfuel => ?_, ?_, ?_⟩
          · have htick : p.tick fuel delta = later.step fuel := by
              simp [tick, isPlaying, hrunning, later]
            rw [Player.ticks, htick, hstep fuel (by omega), Option.bind_some,
              hticks fuel (by omega)]
          · have hboth := (htells.trans htells').perm (due_append_window σ (f + 1) rest.length)
            have hsignals : (if 0 < n ∧ n ≤ rest.length then [Event.finished] else [])
                ++ (if n = 0 then [.finished] else [])
                = if 0 < n + 1 ∧ n + 1 ≤ (delta :: rest).length then [Event.finished (H := H)]
                  else [] := by
              cases n with
              | zero => simp
              | succ n => simp
            rw [hsignals] at hboth
            exact hboth
          · rw [hplaying, List.length_cons]
            omega

/-- Starts playback, and lets one delta after the other pass in a tick. -/
def perform (fuel : Nat) (deltas : List Float) (p : Player H) : Option (Player H) :=
  (p.play fuel).bind (ticks fuel deltas)

/-- **Frame-exact timing.** A player that plays a timed sequence is running after `t` ticks exactly
if the sequence lasts longer than that, whatever time the ticks cover. It tells its host once that
playback finished, within the last step and at the start if the sequence lasts no time. Until then
exactly the cues of these frames are played, each as often as the sequence lists it. -/
theorem timed_performance (p : Player H) (hidle : p.isPlaying = false)
    (htimed : p.sequence.Timed) (deltas : List Float) :
    ∃ bound p' events, (∀ fuel, bound ≤ fuel → p.perform fuel deltas = some p') ∧
      p'.playback.history = events ++ p.playback.history ∧
      (p'.isPlaying = true ↔ deltas.length < p.sequence.duration) ∧
      events.filter Event.isSignal =
        (if deltas.length < p.sequence.duration then [] else [.finished]) ∧
      ((events.filterMap Event.invocation?).map Invocation.cue).Perm
        ((p.sequence.cues .root 0).filter (·.frame ≤ deltas.length)) := by
  let σ := p.sequence.cues .root 0
  let fresh : Playback H :=
    { p.playback with clock := .zero, stopRequested := false, nextTicket := 0 }
  let first : Player H :=
    { p with
      playback := fresh.record (.noticed (.playing p.sequence.name))
      backlog := 0.0
      run := some (.new p.sequence .root)
      phase := .running }
  have hstart : p.playback.Tells [] [] first.playback :=
    ⟨[.noticed (.playing p.sequence.name)], rfl, rfl, .nil⟩
  -- The step of `play`, and those of the ticks.
  obtain ⟨bound, p₁, hstep, htells, hafter⟩ := step_lasts (p := first) rfl rfl ⟨rfl, rfl⟩
    (run_lasts p.sequence htimed .root 0)
  have hσ : ∀ cue ∈ σ, cue.frame ≤ 0 + p.sequence.duration := fun cue hcue =>
    (p.sequence.cues_within .root 0 cue hcue).2
  obtain ⟨bound', p', hticks, htells', hplaying⟩ := hafter.ticks hσ deltas
  have hall := (hstart.trans (htells.trans htells')).perm (due_append_window σ 0 deltas.length)
  obtain ⟨events, heq, hsignals, hcues⟩ := hall
  refine ⟨max bound bound', p', events, fun fuel hfuel => ?_, heq, hplaying, ?_, ?_⟩
  · have hplay : p.play fuel = first.step fuel := by
      simp [play, hidle, first, fresh, record]
    rw [perform, hplay, hstep fuel (by omega), Option.bind_some, hticks fuel (by omega)]
  · rw [hsignals]
    by_cases hend : deltas.length < p.sequence.duration
    · rw [if_pos hend, if_neg (by omega), if_neg (by omega)]
      rfl
    · rw [if_neg hend]
      by_cases hzero : p.sequence.duration = 0
      · rw [if_pos hzero, if_neg (by omega)]
        rfl
      · rw [if_neg hzero, if_pos (by omega)]
        rfl
  · have hwindow : window σ 0 (deltas.length + 1) = σ.filter (·.frame ≤ deltas.length) := by
      refine List.filter_congr fun cue _ => ?_
      rw [Bool.eq_iff_iff]
      simp only [decide_eq_true_eq]
      omega
    rw [hwindow] at hcues
    exact hcues

/-- Two nodes at once, one of which takes a step. -/
def chorus : Sequence Host.none where
  id := ⟨.ofNat 2⟩
  name := "chorus"
  parallel := true
  nodes := [.new ⟨.ofNat 1⟩ (.waitFrames 1), .new ⟨.ofNat 2⟩ (.setParameter "sung" (.bool true))]

/-- A block in which a loop outlasts a wait, and a line for the log. -/
def fanfare : Sequence Host.none where
  id := ⟨.ofNat 1⟩
  name := "fanfare"
  nodes := [
    .new ⟨.ofNat 1⟩ (.parallelNext 2),
    .new ⟨.ofNat 2⟩ (.waitFrames 2),
    .new ⟨.ofNat 3⟩ (.nested chorus ⟨.ofNat 3⟩ (.times 3)),
    .new ⟨.ofNat 4⟩ (.log (.new "done") .info)]

/-- A fanfare of three steps: the block and the first pass of the chorus begin at once, and the log
line follows in the step in which the third pass is done. -/
theorem timed_performance_fanfare :
    fanfare.duration = 3 ∧
    (fanfare.cues .root 0).map (·.frame) = [0, 0, 0, 0, 0, 1, 1, 2, 2, 3] ∧
    ∃ bound p' events,
      (∀ fuel, bound ≤ fuel →
        ({ sequence := fanfare } : Player Host.none).perform fuel [0.5, 0.25, 0.5] = some p') ∧
      p'.playback.history = events ∧ p'.isPlaying = false ∧
      events.filter Event.isSignal = [.finished] ∧
      ((events.filterMap Event.invocation?).map Invocation.cue).Perm
        ((fanfare.cues .root 0).filter (·.frame ≤ 3)) := by
  have htimed : fanfare.Timed := by
    simp [fanfare, chorus, Entry.new, Sequence.Timed, ItemsTimed, BranchesTimed, Node.Timed,
      Node.branchCount?, Cursor.highest]
  obtain ⟨bound, p', events, hperform, heq, hplaying, hsignals, hcues⟩ :=
    timed_performance { sequence := fanfare } rfl htimed [0.5, 0.25, 0.5]
  exact ⟨rfl, rfl, bound, p', events, hperform, heq.trans (List.append_nil events),
    Bool.eq_false_iff.mpr (mt hplaying.mp (by decide)), hsignals, hcues⟩

end Player

end Sequencer
