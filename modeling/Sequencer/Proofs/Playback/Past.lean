import Sequencer.Proofs.Playback.Adequacy
import Sequencer.Proofs.Playback.History

/-!
# Sequencer.Proofs.Playback.Past

Nothing that runs reads the history. A playback may be continued with any past behind what its
history holds (`Playback.onto`), and whatever the scheduler does comes to the same there, with that
past behind what is added.

There is one equation for each function of the scheduler, which moves the past out of what the
function is given and into what it returns; the functions that poll get theirs from that of the
poller (`Poller.Heedless`). `Run.step_onto` is the last one.
-/

namespace Sequencer

variable {H : Host}

namespace Playback

/-- The playback with a past behind its history. -/
def onto (pb : Playback H) (past : List (Event H)) : Playback H :=
  { pb with history := pb.history ++ past }

variable (pb : Playback H) (past : List (Event H))

@[simp] theorem record_onto (e : Event H) : (pb.onto past).record e = (pb.record e).onto past := rfl

/-- Any number of events. -/
theorem foldl_record_onto {α : Type} (f : α → Event H) (xs : List α) :
    xs.foldl (fun pb x => pb.record (f x)) (pb.onto past)
      = (xs.foldl (fun pb x => pb.record (f x)) pb).onto past := by
  induction xs generalizing pb with
  | nil => rfl
  | cons x rest ih => exact ih (pb.record (f x))

@[simp] theorem bindings_onto : (pb.onto past).bindings = pb.bindings := rfl

@[simp] theorem abandon_onto (tasks : List Held) :
    (pb.onto past).abandon tasks = (pb.abandon tasks).onto past :=
  foldl_record_onto pb past _ tasks

@[simp] theorem notice_onto (notices : List Notice) :
    (pb.onto past).notice notices = (pb.notice notices).onto past :=
  foldl_record_onto pb past _ notices

end Playback

namespace Context

/-- The context with a past behind its history. -/
def onto (cx : Context H) (past : List (Event H)) : Context H :=
  { cx with playback := cx.playback.onto past }

variable (cx : Context H) (past : List (Event H))

@[simp] theorem onto_playback : (cx.onto past).playback = cx.playback.onto past := rfl

@[simp] theorem onto_cursor : (cx.onto past).cursor = cx.cursor := rfl

@[simp] theorem stopRequested_onto : (cx.onto past).stopRequested = cx.stopRequested := rfl

@[simp] theorem parameterIs_onto (name : String) (expected : Bool) :
    (cx.onto past).parameterIs name expected = cx.parameterIs name expected := rfl

@[simp] theorem surroundings_onto : (cx.onto past).surroundings = cx.surroundings := rfl

@[simp] theorem nextNode?_onto (sequence : Sequence H) :
    (cx.onto past).nextNode? sequence = cx.nextNode? sequence := rfl

@[simp] theorem record_onto (e : Event H) : (cx.onto past).record e = (cx.record e).onto past := rfl

@[simp] theorem fieldValues_onto (node : SequenceNode H) (o : Occurrence) :
    (cx.onto past).fieldValues node o = cx.fieldValues node o := rfl

@[simp] theorem invocation_onto (sequence : Sequence H) (nested : NestedId) (position : Nat)
    (entry : SequenceEntry H) (parallel : Bool) :
    (cx.onto past).invocation sequence nested position entry parallel
      = cx.invocation sequence nested position entry parallel := rfl

@[simp] theorem advance_onto (count : Nat) :
    (cx.onto past).advance count = (cx.advance count).onto past := rfl

@[simp] theorem rewind_onto (count : Nat) :
    (cx.onto past).rewind count = (cx.rewind count).onto past := rfl

@[simp] theorem moveTo_onto (index : Nat) :
    (cx.onto past).moveTo index = (cx.moveTo index).onto past := rfl

@[simp] theorem release_onto (task : Task H) :
    (cx.onto past).release task = (cx.release task).onto past := by
  simp [release, onto]

@[simp] theorem requestStop_onto :
    (cx.onto past).requestStop = cx.requestStop.onto past := by
  rw [requestStop, requestStop, stopRequested_onto]
  split <;> rfl

@[simp] theorem absorb_onto (r : Reaction H.Note) :
    (cx.onto past).absorb r = (cx.absorb r).onto past := by
  have hnotes := Playback.foldl_record_onto
    { cx.playback with parameters := r.surroundings.parameters } past Event.noted r.notes
  have hcontext := congrArg (Context.mk r.surroundings.cursor) hnotes
  unfold absorb
  dsimp only
  split
  · exact (congrArg requestStop hcontext).trans (requestStop_onto ⟨_, _⟩ past)
  · exact hcontext

theorem start_onto (node : SequenceNode H) (sequence : Sequence H) (nested : NestedId)
    (values : List Value) :
    node.start sequence nested values (cx.onto past)
      = ((node.start sequence nested values cx).1,
        (node.start sequence nested values cx).2.onto past) := by
  cases node with
  | skip count =>
      simp only [Node.start, onto_playback, Playback.bindings_onto, advance_onto, rewind_onto]
      exact congrArg (Prod.mk none) (apply_ite (Context.onto · past) _ _ _).symm
  | skipIf parameter expected count =>
      simp only [Node.start, parameterIs_onto, advance_onto]
      exact congrArg (Prod.mk none) (apply_ite (Context.onto · past) _ _ _).symm
  | parallelNext count =>
      simp only [Node.start, onto_cursor]
      split <;> rfl
  | stop => simp [Node.start]
  | host n => simp [Node.start]
  | _ => rfl

/-- An invocation launches the same task. -/
theorem invoke_onto (sequence : Sequence H) (nested : NestedId) (position : Nat)
    (entry : SequenceEntry H) (parallel : Bool) :
    (cx.onto past).invoke sequence nested position entry parallel
      = ((cx.invoke sequence nested position entry parallel).1,
        (cx.invoke sequence nested position entry parallel).2.onto past) := by
  rw [invoke_eq, invoke_eq, fieldValues_onto, invocation_onto, record_onto, start_onto]
  rcases entry.node.start sequence nested (cx.fieldValues entry.node ⟨sequence.id, nested⟩)
    (cx.record (.invoked (cx.invocation sequence nested position entry parallel)))
    with ⟨_ | work, cx₁⟩ <;> rfl

end Context

/-- A way of polling that does not read the history. -/
def Poller.Heedless (poll : Poller H) : Prop :=
  ∀ task cx past, poll task (cx.onto past)
    = (poll task cx).map fun r => (r.1, r.2.1, r.2.2.onto past)

section Poll

variable {poll : Poller H} (hpoll : poll.Heedless) (past : List (Event H))
include hpoll

theorem Context.visit?_onto (cx : Context H) (sequence : Sequence H) (nested : NestedId)
    (position : Nat) (entry : SequenceEntry H) (parallel : Bool) :
    (cx.onto past).visit? poll sequence nested position entry parallel
      = (cx.visit? poll sequence nested position entry parallel).map
          fun r => (r.1, r.2.onto past) := by
  rw [Context.visit?, Context.visit?, Context.invoke_onto]
  rcases cx.invoke sequence nested position entry parallel with ⟨_ | task, cx₁⟩
  · rfl
  · dsimp only
    rw [hpoll]
    rcases poll task cx₁ with _ | ⟨_ | _, task', cx₂⟩
    · rfl
    · rfl
    · simp

theorem Join.startFrom_onto (sequence : Sequence H) (nested : NestedId)
    (range : List (SequenceEntry H × Nat)) (next : Nat) (join : Join (Task H)) (cx : Context H) :
    Join.startFrom poll sequence nested range next join (cx.onto past)
      = (Join.startFrom poll sequence nested range next join cx).map
          fun r => (r.1, r.2.onto past) := by
  induction range generalizing next join cx with
  | nil => rfl
  | cons branch rest ih =>
      obtain ⟨entry, position⟩ := branch
      rw [Join.startFrom_cons, Join.startFrom_cons, Context.stopRequested_onto,
        Context.moveTo_onto, Context.visit?_onto hpoll past]
      split
      · exact ih next join cx
      split
      · rfl
      rcases (cx.moveTo position).visit? poll sequence nested position entry true
        with _ | ⟨outcome, cx₁⟩
      · rfl
      · exact ih (cx₁.nextBranch position) (join.count outcome) cx₁

theorem Join.pollBranches_onto (tasks : List (Task H)) (cx : Context H) :
    Join.pollBranches poll tasks (cx.onto past)
      = (Join.pollBranches poll tasks cx).map fun r => (r.1, r.2.1, r.2.2.onto past) := by
  induction tasks generalizing cx with
  | nil => rfl
  | cons task rest ih =>
      rw [Join.pollBranches, Join.pollBranches, hpoll]
      rcases poll task cx with _ | ⟨_ | _, task', cx₁⟩
      · rfl
      · simp only [Option.map_some, Progress.isDone, Bool.false_eq_true, ↓reduceIte, ih]
        rcases Join.pollBranches poll rest cx₁ with _ | ⟨pending, finished, cx₂⟩ <;> rfl
      · simp only [Option.map_some, Progress.isDone, ↓reduceIte, Context.release_onto, ih]
        rcases Join.pollBranches poll rest (cx₁.release task')
          with _ | ⟨pending, finished, cx₂⟩ <;> rfl

theorem Join.advance_onto (sequence : Sequence H) (nested : NestedId) (first stop : Nat)
    (join : Option (Join (Task H))) (cx : Context H) :
    Join.advance poll sequence nested first stop join (cx.onto past)
      = (Join.advance poll sequence nested first stop join cx).map
          fun r => (r.1, r.2.onto past) := by
  cases join with
  | none => exact Join.startFrom_onto hpoll past sequence nested _ first {} cx
  | some join =>
      rw [Join.advance, Join.advance, Join.poll, Join.poll, Join.pollBranches_onto hpoll past]
      rcases Join.pollBranches poll join.branches cx with _ | ⟨branches, finished, cx₁⟩ <;> rfl

theorem Run.walk_onto (sequence : Sequence H) (nested : NestedId) (fuel : Nat) (cx : Context H) :
    Run.walk poll sequence nested fuel (cx.onto past)
      = (Run.walk poll sequence nested fuel cx).map
          fun r => (r.1, r.2.1, r.2.2.onto past) := by
  induction fuel generalizing cx with
  | zero => rfl
  | succ fuel ih =>
      rw [Run.walk_succ, Run.walk_succ, Context.stopRequested_onto, Context.nextNode?_onto]
      split
      · rfl
      rcases cx.nextNode? sequence with _ | ⟨position, entry⟩
      · rfl
      dsimp only
      rw [Context.visit?_onto hpoll past]
      rcases cx.visit? poll sequence nested position entry false with _ | ⟨_ | task, cx₁⟩
      · rfl
      · exact ih (cx₁.advance 1)
      · rfl

theorem Run.resume_onto (fuel : Nat) (sequence : Sequence H) (nested : NestedId)
    (current : Option (Task H)) (cx : Context H) :
    Run.resume poll fuel sequence nested current (cx.onto past)
      = (Run.resume poll fuel sequence nested current cx).map
          fun r => (r.1, r.2.1, r.2.2.onto past) := by
  cases current with
  | none => exact Run.walk_onto hpoll past sequence nested fuel cx
  | some task =>
      rw [Run.resume, Run.resume, hpoll]
      rcases poll task cx with _ | ⟨_ | _, task', cx₁⟩
      · rfl
      · rfl
      · dsimp only [Option.map_some]
        rw [Context.release_onto]
        exact Run.walk_onto hpoll past sequence nested fuel ((cx₁.release task').advance 1)

theorem Run.step_onto (fuel : Nat) (run : SequenceRun H) (playback : Playback H) :
    run.step poll fuel (playback.onto past)
      = (run.step poll fuel playback).map fun r => (r.1, r.2.1, r.2.2.onto past) := by
  obtain ⟨sequence, nested, cursor, mode⟩ := run
  cases mode with
  | sequential current =>
      have hresume := Run.resume_onto hpoll past fuel sequence nested current ⟨cursor, playback⟩
      simp only [Run.step]
      rw [show (⟨cursor, playback.onto past⟩ : Context H)
        = (⟨cursor, playback⟩ : Context H).onto past from rfl, hresume]
      rcases Run.resume poll fuel sequence nested current ⟨cursor, playback⟩
        with _ | ⟨progress, current', cx⟩ <;> rfl
  | parallel join =>
      have hjoin := Join.advance_onto hpoll past sequence nested 0 sequence.length join
        ⟨cursor, playback⟩
      simp only [Run.step]
      rw [show (⟨cursor, playback.onto past⟩ : Context H)
        = (⟨cursor, playback⟩ : Context H).onto past from rfl, hjoin]
      rcases Join.advance poll sequence nested 0 sequence.length join ⟨cursor, playback⟩
        with _ | ⟨join', cx⟩
      · rfl
      · cases hdone : join'.isDone <;> simp [hdone]

theorem Passes.poll_onto (fuel ticket left : Nat) (p : Passes H (Task H))
    (playback : Playback H) :
    Passes.poll poll fuel ticket left p (playback.onto past)
      = (Passes.poll poll fuel ticket left p playback).map
          fun r => (r.1, r.2.1, r.2.2.onto past) := by
  induction left generalizing p playback with
  | zero => rfl
  | succ left ih =>
      have hcurrent : p.current ticket (playback.onto past)
          = ((p.current ticket playback).1, (p.current ticket playback).2.1,
            (p.current ticket playback).2.2.onto past) := by
        unfold Passes.current
        split <;> rfl
      rw [Passes.poll_succ, Passes.poll_succ, hcurrent]
      rcases p.current ticket playback with ⟨run, suspended, playback₁⟩
      dsimp only
      rw [Run.step_onto hpoll past]
      rcases run.step poll fuel playback₁ with _ | ⟨_ | _, run', playback₂⟩
      · rfl
      · rfl
      · have hclose : p.closePass ticket run' (playback₂.onto past)
            = (p.closePass ticket run' playback₂).onto past := by simp [Passes.closePass]
        simp only [Option.map_some, hclose]
        split
        · rfl
        · rfl
        · exact ih _ _

theorem Task.advance_onto (fuel ticket : Nat) (work : Work H (Task H)) (cx : Context H) :
    Task.advance poll fuel ticket work (cx.onto past)
      = (Task.advance poll fuel ticket work cx).map fun r => (r.1, r.2.1, r.2.2.onto past) := by
  cases work with
  | untilTime deadline | untilFrame frame | untilParameter name expected => rfl
  | hosted w => simp [Task.advance]
  | block block =>
      rw [Task.advance, Task.advance, Block.poll, Block.poll, Join.advance_onto hpoll past]
      rcases Join.advance poll block.sequence block.nested block.first block.stop block.join cx
        with _ | ⟨join, cx₁⟩
      · rfl
      · cases hdone : join.isDone <;> simp [hdone]
  | passes passes =>
      rw [Task.advance, Task.advance, Context.onto_playback, Passes.poll_onto hpoll past]
      rcases passes.poll poll fuel ticket fuel cx.playback
        with _ | ⟨progress, passes', playback⟩ <;> rfl

end Poll

theorem Task.heedless_pollWith {poll : Poller H} (hpoll : poll.Heedless) (fuel : Nat) :
    Poller.Heedless (Task.pollWith poll fuel) := by
  intro task cx past
  rw [Task.pollWith, Task.pollWith, Context.record_onto, Task.advance_onto hpoll past]
  rcases Task.advance poll fuel task.ticket task.work (cx.record (.polled task.ticket))
    with _ | ⟨_ | _, work, cx₁⟩ <;> rfl

/-- No poll reads the history. -/
theorem Task.heedless_poll (fuel : Nat) : Poller.Heedless (Task.poll (H := H) fuel) := by
  induction fuel with
  | zero => intro task cx past; rfl
  | succ fuel ih => exact Task.heedless_pollWith ih fuel

end Sequencer
