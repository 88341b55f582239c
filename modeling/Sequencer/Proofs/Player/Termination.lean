import Sequencer.Proofs.Playback.Termination
import Sequencer.Proofs.Player.Addressing
import Sequencer.Proofs.Player.Tickets

/-!
# Sequencer.Proofs.Player.Termination

Steps of a player come to an end.

A player computes a step within a bound, and a step that goes back for ever has no answer within any
bound. On a forward-only tree there is no such step (`play_and_tick_complete`), wherever in the tree
the player has got to: its run belongs to the tree, and so do all tasks that are suspended in it.
-/

namespace Sequencer

variable {H : Host}

namespace Player

variable {p q : Player H}

/-- From some bound on the computation comes to one and the same player. Its history is that of `p`
with a finite list of events in front, invocations and polls among them. -/
def Completes (p : Player H) (computation : Nat → Option (Player H)) : Prop :=
  ∃ bound p' events, p'.playback.history = events ++ p.playback.history ∧
    ∀ fuel, bound ≤ fuel → computation fuel = some p'

theorem Completes.of_refl (p : Player H) : p.Completes fun _ => some p :=
  ⟨0, p, [], rfl, fun _ _ => rfl⟩

/-- What `q` does, `p` does if it comes to `q` first. -/
theorem Completes.after {computation : Nat → Option (Player H)} (h : q.Completes computation)
    {events : List (Event H)} (hq : q.playback.history = events ++ p.playback.history) :
    p.Completes computation := by
  obtain ⟨bound, p', events', heq, hcomputes⟩ := h
  refine ⟨bound, p', events' ++ events, ?_, hcomputes⟩
  rw [heq, hq, List.append_assoc]

/-- On a forward-only tree a step comes to an end. -/
theorem Addressed.step_completes (hp : p.Addressed)
    (h : p.sequence.ForwardOnly p.playback.bindings) : p.Completes (p.step ·) := by
  cases hrun : p.run with
  | none =>
      have hstep : (p.step ·) = fun _ => some p := by
        funext fuel
        rw [step_eq, hrun]
      rw [hstep]
      exact .of_refl p
  | some run =>
      have hends : (Errand.step run p.playback).Ends := (hp.housed run hrun).stepEnds h _ rfl
      obtain ⟨progress, run', playback, hreturns⟩ := Errand.ends_step hends
      obtain ⟨bound, hcomputes⟩ := step_of_returns hrun hreturns
      obtain ⟨events, heq, -⟩ := comes_of_step hp.consistent hrun (hcomputes bound (Nat.le_refl _))
      exact ⟨bound, _, events, heq, hcomputes⟩

/-- **Termination.** Let a player have come to any state over a tree of sequences in which no skip
resolves to a negative distance, and no node of the host moves the cursor back. Then `play` and
every tick come to an end, after finitely many invocations and polls. -/
theorem play_and_tick_complete (hp : p.Reachable)
    (h : p.sequence.ForwardOnly p.playback.bindings) :
    p.Completes (p.play ·) ∧ ∀ delta, p.Completes (p.tick · delta) := by
  have haddressed : p.Addressed := .of_reachable hp
  constructor
  · cases hplaying : p.isPlaying with
    | true =>
        simp only [play_eq, hplaying, if_true]
        exact .of_refl p
    | false =>
        have hstep := (haddressed.started hplaying).step_completes h
        simp only [play_eq, hplaying, Bool.false_eq_true, if_false]
        have hbegun : p.started.playback.history
            = [.noticed (.playing p.sequence.name)] ++ p.playback.history := rfl
        exact hstep.after hbegun
  · intro delta
    cases hplaying : p.isPlaying with
    | true =>
        have hstep := (haddressed.later delta).step_completes h
        simp only [tick_eq, hplaying, if_true]
        have hlater : (p.later delta).playback.history = [] ++ p.playback.history := rfl
        exact hstep.after hlater
    | false =>
        simp only [tick_eq, hplaying, Bool.false_eq_true, if_false]
        exact .of_refl p

/-- An encore is sung after the applause. -/
def encore : Sequence Host.none where
  id := ⟨.ofNat 2⟩
  name := "encore"
  nodes := [
    .new ⟨.ofNat 1⟩ (.waitUntil "applause" true),
    .new ⟨.ofNat 2⟩ (.log (.new "la la") .info)]

/-- Two blocks that overlap, with encores for ever in both of them and a skip at the end. -/
def revue : Sequence Host.none where
  id := ⟨.ofNat 1⟩
  name := "revue"
  nodes := [
    .new ⟨.ofNat 1⟩ (.parallelNext 2),
    .new ⟨.ofNat 2⟩ (.parallelNext 3),
    .new ⟨.ofNat 3⟩ (.nested encore ⟨.ofNat 3⟩ .forever),
    .new ⟨.ofNat 4⟩ (.skip (.new 1)),
    .new ⟨.ofNat 5⟩ (.log (.new "skipped") .info),
    .new ⟨.ofNat 6⟩ (.waitFrames 1)]

theorem reaches_revue {r : Reached Host.none} (h : revue.Reaches r) :
    r = ⟨revue, .root⟩ ∨ r.sequence = encore := by
  induction h with
  | refl => exact .inl rfl
  | @tail r q _ hnests ih =>
      refine .inr ?_
      rcases ih with rfl | hsequence
      · exact congrArg Prod.snd (List.mem_singleton.mp hnests)
      · have hnone : encore.nestedSequences = [] := rfl
        rw [Reached.Nests, hsequence, hnone] at hnests
        cases hnests

/-- The skip of a revue is not registered, so it is the same under all bindings. -/
theorem forwardOnly_revue (b : Bindings) : revue.ForwardOnly b := by
  intro r hr
  rcases reaches_revue hr with rfl | hsequence
  · have hskip : 0 ≤ (b.resolve (.new 1 : Field Int32) ⟨revue.id, .root⟩).toInt := by
      change 0 ≤ (1 : Int32).toInt
      decide
    refine ⟨by decide, ?_⟩
    simp only [revue, List.forall_mem_cons]
    exact ⟨.inl ⟨2, rfl⟩, .inl ⟨3, rfl⟩, .inr trivial, .inr hskip, .inr trivial, .inr trivial,
      nofun⟩
  · refine ⟨by rw [hsequence]; decide, ?_⟩
    rw [hsequence]
    simp only [encore, List.forall_mem_cons]
    exact ⟨.inr trivial, .inr trivial, nofun⟩

/-- The audience claps. -/
def applause : Parameters := Parameters.empty.set "applause" (.bool true)

/-- Amid the applause the encores are sung one after the other. The first one had to wait for it,
the next one has not, and ends in the step in which it begins. -/
theorem play_and_tick_complete_revue :
    ∃ p : Player Host.none, p.Reachable ∧ p.heldTickets = [0, 1, 2] ∧
      (p.playback.history.filterMap Event.invocation?).reverse.map (fun i =>
        (i.sequence.name, i.position)) = [("revue", 0), ("revue", 1), ("revue", 2), ("encore", 0),
          ("revue", 3), ("encore", 1), ("encore", 0), ("encore", 1)] ∧
      p.sequence.ForwardOnly p.playback.bindings ∧ p.Completes (p.play ·) ∧
      ∀ delta, p.Completes (p.tick · delta) := by
  have hcomputed : ((Player.new revue).play 9).bind (fun q => (Player.tick 9 0.5
      { q with playback := { q.playback with parameters := applause } }).map fun p =>
        (q.isPlaying, p.heldTickets, (p.playback.history.filterMap Event.invocation?).reverse.map
          fun i => (i.sequence.name, i.position))) =
      some (true, [0, 1, 2], [("revue", 0), ("revue", 1), ("revue", 2), ("encore", 0),
        ("revue", 3), ("encore", 1), ("encore", 0), ("encore", 1)]) := by decide +kernel
  have hnew : (Player.new revue).Reachable := .new revue {}
  have hidle : (Player.new revue).isPlaying = false := rfl
  have hrevue : (Player.new revue).sequence = revue := rfl
  generalize Player.new revue = new at *
  obtain ⟨q, hplay, hrest⟩ := Option.bind_eq_some_iff.mp hcomputed
  obtain ⟨p, htick, hvalues⟩ := Option.map_eq_some_iff.mp hrest
  simp only [Prod.mk.injEq] at hvalues
  obtain ⟨hplaying, hheld, hinvoked⟩ := hvalues
  have hreachable : p.Reachable := by
    have hobeyAll : new.obeyAll 9 [.play, .editParameters fun _ => applause, .tick 0.5] = some p := by
      simp [obeyAll, obey, hplay, htick]
    exact hnew.obeyAll hobeyAll
  have hsequence : p.sequence = revue := by
    have hplaying' : Player.isPlaying
        { q with playback := { q.playback with parameters := applause } } = true := hplaying
    rw [play_eq, hidle, if_neg Bool.false_ne_true] at hplay
    rw [tick_eq, hplaying', if_pos rfl] at htick
    exact (sequence_step htick).trans ((sequence_step hplay).trans hrevue)
  have hforward : p.sequence.ForwardOnly p.playback.bindings := by
    rw [hsequence]
    exact forwardOnly_revue _
  obtain ⟨hplays, hticks⟩ := play_and_tick_complete hreachable hforward
  exact ⟨p, hreachable, hheld, hinvoked, hforward, hplays, hticks⟩

end Player

end Sequencer
