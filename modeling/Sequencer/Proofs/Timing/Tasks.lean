import Sequencer.Proofs.Playback.Places
import Sequencer.Proofs.Timing.Lasts

/-!
# Sequencer.Proofs.Timing.Tasks

Tasks that last for a number of frames, and the visits of the nodes that leave them. The first poll
of a task happens in the visit, within the frame of the invocation: a node that lasts `n` frames
leaves a task that lasts `n - 1` frames from the next one on, and a node that lasts none leaves no
task.
-/

namespace Sequencer

variable {H : Host} {C : Cursor → Prop} {n f : Nat} {σ : List (Cue H)}

/-! ### Work and tasks -/

/-- Work is stepped at cursors of the set `C`, and leaves them where they are. -/
def Work.Steps (C : Cursor → Prop) (ticket : Nat) : Stepping H (Work H (Task H)) :=
  fun w pb progress w' pb' => ∀ c, C c →
    (Job.work ticket w ⟨c, pb⟩ progress w' ⟨c, pb'⟩).Returns

/-- The same of the task that does the work. -/
def Task.Steps (C : Cursor → Prop) : Stepping H (Task H) :=
  fun t pb progress t' pb' => ∀ c, C c → (Job.poll t ⟨c, pb⟩ progress t' ⟨c, pb'⟩).Returns

/-- Every cursor. -/
abbrev Anywhere : Cursor → Prop := fun _ => True

theorem Playback.Plays.polled (pb : Playback H) (ticket : Nat) :
    pb.Plays [] (pb.record (.polled ticket)) :=
  .record pb rfl rfl

/-- The playback when a task with this ticket was polled. -/
def Playback.closePoll (pb : Playback H) (ticket : Nat) (progress : Progress) : Playback H :=
  if progress.isDone then pb.record (.completed ticket) else pb

theorem Playback.Plays.closePoll (pb : Playback H) (ticket : Nat) (progress : Progress) :
    pb.Plays [] (pb.closePoll ticket progress) := by
  cases progress with
  | pending => exact .refl pb
  | done => exact .record pb rfl rfl

/-- A poll does the task's work. -/
theorem Job.Returns.poll {ticket : Nat} {finished : Bool} {w w' : Work H (Task H)} {c c' : Cursor}
    {pb pb' : Playback H} {progress : Progress}
    (h : (Job.work ticket w ⟨c, pb.record (.polled ticket)⟩ progress w' ⟨c', pb'⟩).Returns) :
    (Job.poll ⟨ticket, finished, w⟩ ⟨c, pb⟩ progress ⟨ticket, progress.isDone, w'⟩
      ⟨c', pb'.closePoll ticket progress⟩).Returns := by
  let task : Task H := ⟨ticket, finished, w⟩
  cases progress with
  | pending => exact @Job.Returns.pollPending H task ⟨c, pb⟩ _ w' h
  | done => exact @Job.Returns.pollDone H task ⟨c, pb⟩ _ w' h

/-- A task lasts as long as its work. -/
theorem Lasts.task {ticket : Nat} {w : Work H (Task H)}
    (h : Lasts (Work.Steps C ticket) n f σ w) (finished : Bool) :
    Lasts (Task.Steps C) n f σ ⟨ticket, finished, w⟩ := by
  refine h.simulate (fun w t => ∃ finished, t = ⟨ticket, finished, w⟩) ?_ ⟨finished, rfl⟩
  rintro w _ ⟨finished, rfl⟩ pb
  refine ⟨_, .polled pb ticket, fun {progress w' pb₁} hw => ?_⟩
  exact ⟨⟨ticket, progress.isDone, w'⟩, _, fun c hc => (hw c hc).poll, .closePoll pb₁ _ _,
    fun _ => ⟨_, rfl⟩⟩

/-- Waiting for a frame invokes nothing. -/
theorem lasts_untilFrame (ticket n f : Nat) :
    Lasts (Work.Steps C ticket) n f ([] : List (Cue H)) (.untilFrame (f + n)) := by
  induction n generalizing f with
  | zero =>
      intro pb hpb
      refine ⟨.untilFrame f, pb, fun c _ => ?_, .refl pb⟩
      have hdue : f ≤ pb.clock.frame := Nat.le_of_eq hpb.1.symm
      have hdone : Progress.doneIf (f ≤ pb.clock.frame) = .done := by rw [decide_eq_true hdue]; rfl
      rw [← hdone]
      exact .untilFrame
  | succ n ih =>
      intro pb hpb
      have heq : f + (n + 1) = f + 1 + n := by omega
      rw [heq]
      refine ⟨.untilFrame (f + 1 + n), pb, fun c _ => ?_, .refl pb, ih (f + 1)⟩
      have hlate : ¬ f + 1 + n ≤ pb.clock.frame := by
        have := hpb.1
        omega
      have hpending : Progress.doneIf (f + 1 + n ≤ pb.clock.frame) = .pending := by
        rw [decide_eq_false hlate]
        rfl
      rw [← hpending]
      exact .untilFrame

/-! ### Visits -/

/-- What is left after the visit of a node in frame `f`: nothing, or a task that lasts one frame
less. -/
def Outcome.Leads (C : Cursor → Prop) (n f : Nat) (σ : List (Cue H)) (outcome : Outcome H) : Prop :=
  match n with
  | 0 => outcome = .done
  | n + 1 => ∃ t, outcome = .pending t ∧ Lasts (Task.Steps C) n (f + 1) σ t

section

variable {s : Sequence H} {nested : NestedId} {p : Nat} {entry : SequenceEntry H} {parallel : Bool}
  {last : Cursor}

/-- A visit in frame `f` of the node at position `p`. The node lasts `n` frames and plays the cues
`σ`; the cursor ends at `last`, and the task that is left can be polled at the cursors of `C`. -/
def Visits (s : Sequence H) (nested : NestedId) (p : Nat) (entry : SequenceEntry H)
    (parallel : Bool) (C : Cursor → Prop) (last : Cursor) (n f : Nat) (σ : List (Cue H)) : Prop :=
  ∀ pb : Playback H, pb.InFrame f → ∃ outcome pb',
    (Job.visit s nested p entry parallel ⟨⟨p⟩, pb⟩ outcome ⟨last, pb'⟩).Returns ∧
    pb.Plays (due σ f) pb' ∧ outcome.Leads C n f σ

/-- The invocation plays the node's own cue. -/
theorem Context.plays_invoke {cx cx' : Context H} {left : Option (Task H)}
    (h : cx.invoke s nested p entry parallel = (left, cx'))
    (hstop : cx'.playback.stopRequested = cx.playback.stopRequested) :
    cx.playback.Plays [⟨s, nested, p, cx.playback.clock.frame⟩] cx'.playback :=
  ⟨⟨_, stretch_invoke h, .refl _⟩, hstop⟩

/-- A node that leaves no work lasts no frame. -/
theorem visits_finished
    (hstart : ∀ values (pb : Playback H), pb.InFrame f → ∃ pb',
      entry.node.start s nested values ⟨⟨p⟩, pb⟩ = (none, ⟨⟨p⟩, pb'⟩) ∧
        pb'.stopRequested = pb.stopRequested) :
    Visits s nested p entry parallel C ⟨p⟩ 0 f [⟨s, nested, p, f⟩] := by
  intro pb hpb
  let cx : Context H := ⟨⟨p⟩, pb⟩
  obtain ⟨pb', heq, hstop⟩ := hstart (cx.fieldValues entry.node ⟨s.id, nested⟩)
    (pb.record (.invoked (cx.invocation s nested p entry parallel))) hpb
  have hinvoke := @Context.invoke_of_none H cx _ s nested p entry parallel heq
  refine ⟨.done, pb', .visitFinished hinvoke, ?_, rfl⟩
  have hplays := Context.plays_invoke hinvoke hstop
  have hdue : due [(⟨s, nested, p, f⟩ : Cue H)] f = [⟨s, nested, p, f⟩] := by simp [due]
  rw [hdue]
  simpa [cx, hpb.1] using hplays

/-- A node that leaves work lasts as long as the work, which is stepped within the visit for the
first time. -/
theorem visits_work {w : Work H (Task H)}
    (hstart : ∀ values (pb : Playback H), pb.InFrame f →
      entry.node.start s nested values ⟨⟨p⟩, pb⟩ = (some w, ⟨⟨p⟩, pb⟩))
    (hfirst : ∀ ticket (pb : Playback H), pb.InFrame f → ∃ progress w' pb',
      (Job.work ticket w ⟨⟨p⟩, pb⟩ progress w' ⟨last, pb'⟩).Returns ∧
        pb.Plays (due σ f) pb' ∧ Leads (Work.Steps C ticket) n f σ progress w') :
    Visits s nested p entry parallel C last n f (⟨s, nested, p, f⟩ :: σ) := by
  intro pb hpb
  let cx : Context H := ⟨⟨p⟩, pb⟩
  let called := pb.record (.invoked (cx.invocation s nested p entry parallel))
  let launched := ((⟨⟨p⟩, called⟩ : Context H).launch w).2.playback
  have hinvoke : cx.invoke s nested p entry parallel
      = (some ⟨pb.nextTicket, false, w⟩, ⟨⟨p⟩, launched⟩) :=
    @Context.invoke_of_some H cx _ s nested p entry parallel w (hstart _ called hpb)
  have hcalled : pb.Plays [⟨s, nested, p, f⟩] launched := by
    simpa [cx, hpb.1] using Context.plays_invoke hinvoke rfl
  have hpolled := Playback.Plays.polled launched pb.nextTicket
  obtain ⟨progress, w', pb', hw, hplays, hleads⟩ :=
    hfirst pb.nextTicket _ (hpolled.inFrame (hcalled.inFrame hpb))
  have hdue : due ((⟨s, nested, p, f⟩ : Cue H) :: σ) f = ⟨s, nested, p, f⟩ :: due σ f := by
    simp [due]
  have hafter : ∀ g, f + 1 ≤ g → due σ g = due ((⟨s, nested, p, f⟩ : Cue H) :: σ) g := by
    intro g hg
    have : f ≠ g := by omega
    simp [due, this]
  -- Invocation, launch and first poll make up the step of this frame.
  have hsofar := hcalled.trans (hpolled.before hplays)
  rw [List.singleton_append, ← hdue] at hsofar
  cases n with
  | zero =>
      obtain rfl : progress = .done := hleads
      refine ⟨.done, _, .visitDone hinvoke hw.poll, ?_, rfl⟩
      exact (hsofar.after (.closePoll pb' pb.nextTicket .done)).after (.abandon _ _)
  | succ n =>
      obtain ⟨rfl, hrest⟩ := hleads
      exact ⟨.pending _, _, .visitPending hinvoke hw.poll, hsofar, _, rfl,
        (hrest.congr hafter).task _⟩

/-- Work that does not depend on the cursor. -/
theorem visits_anywhere {w : Work H (Task H)}
    (hstart : ∀ values (pb : Playback H), pb.InFrame f →
      entry.node.start s nested values ⟨⟨p⟩, pb⟩ = (some w, ⟨⟨p⟩, pb⟩))
    (hlasts : ∀ ticket, Lasts (Work.Steps Anywhere ticket) n f σ w) :
    Visits s nested p entry parallel Anywhere ⟨p⟩ n f (⟨s, nested, p, f⟩ :: σ) := by
  refine visits_work hstart fun ticket pb hpb => ?_
  obtain ⟨progress, w', pb', hw, hplays, hleads⟩ := lasts_iff.mp (hlasts ticket) pb hpb
  exact ⟨progress, w', pb', hw ⟨p⟩ trivial, hplays, hleads⟩

end

end Sequencer
