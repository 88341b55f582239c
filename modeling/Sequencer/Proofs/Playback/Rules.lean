import Sequencer.Playback.Step

/-!
# Sequencer.Proofs.Playback.Rules

The scheduler as a relation, without bounds. A `Job` is something the scheduler does, together with
what it is given and what it returns; `Job.Returns` has one rule for each way in which that can
come about. What is true of every step that ends is proved by induction on these rules, and no
later proof opens the bounded functions.

`Proofs/Playback/Adequacy.lean` shows that the relation has exactly what the bounded functions
answer.
-/

namespace Sequencer

variable {H : Host}

/-- What an invoked node has come to after the first poll of its task, if it left one. -/
inductive Outcome (H : Host)
  /-- The node is done. -/
  | done
  /-- The node left a task that is still pending. -/
  | pending (task : Task H)

namespace Join

/-- Counts a branch that was started. -/
def count (join : Join (Task H)) : Outcome H → Join (Task H)
  | .done => { join with started := join.started + 1, completed := join.completed + 1 }
  | .pending task =>
    { join with started := join.started + 1, branches := join.branches ++ [task] }

/-- Takes over what a round of polls left of the branches. -/
def update (join : Join (Task H)) (branches : List (Task H)) (finished : Nat) : Join (Task H) :=
  { join with branches, completed := join.completed + finished }

end Join

namespace Context

/-- Where a fork goes on after the branch at a position. -/
def nextBranch (cx : Context H) (position : Nat) : Nat :=
  max (cx.cursor.position?.getD position) position + 1

/-- The node that a sequence goes on with, and its position. -/
def nextNode? (cx : Context H) (sequence : Sequence H) : Option (Nat × SequenceEntry H) :=
  cx.cursor.position?.bind fun i => sequence.nodes[i]?.map (i, ·)

/-- The context with the cursor moved if a condition holds. -/
def moveToIf (cx : Context H) (condition : Bool) (index : Nat) : Context H :=
  if condition then cx.moveTo index else cx

@[simp] theorem moveToIf_playback (cx : Context H) (condition : Bool) (index : Nat) :
    (cx.moveToIf condition index).playback = cx.playback := by
  cases condition <;> rfl

end Context

namespace Passes

/-- The pass that a poll goes on with, and whether it was suspended before. -/
def current (ticket : Nat) (p : Passes H (Task H)) (playback : Playback H) :
    SequenceRun H × Bool × Playback H :=
  match p.run with
  | some run => (run, p.suspended, playback)
  | none => (.new p.sequence p.identity, false, playback.record (.passStarted ticket))

/-- The passes with one more completed. -/
def completePass (p : Passes H (Task H)) (suspended : Bool) : Passes H (Task H) :=
  { p with run := none, suspended, completed := min (p.completed + 1) maxCompleted }

/-- The playback after the end of a pass. -/
def closePass (ticket : Nat) (p : Passes H (Task H)) (run : SequenceRun H)
    (playback : Playback H) : Playback H :=
  (playback.abandon run.held).record
    (.passEnded ticket p.sequence.name (min (p.completed + 1) maxCompleted))

end Passes

/-- Something the scheduler does, with what it is given and what it returns. -/
inductive Job (H : Host)
  /-- A task is polled once. -/
  | poll (task : Task H) (cx : Context H) (progress : Progress) (task' : Task H) (cx' : Context H)
  /-- A polled task does its work. -/
  | work (ticket : Nat) (work : Work H (Task H)) (cx : Context H) (progress : Progress)
      (work' : Work H (Task H)) (cx' : Context H)
  /-- A join over a range of nodes is started or polled. -/
  | join (sequence : Sequence H) (nested : NestedId) (first stop : Nat)
      (join : Option (Join (Task H))) (cx : Context H) (join' : Join (Task H)) (cx' : Context H)
  /-- The branches of a range are started, from a position on. -/
  | fork (sequence : Sequence H) (nested : NestedId) (range : List (SequenceEntry H × Nat))
      (next : Nat) (join : Join (Task H)) (cx : Context H) (join' : Join (Task H))
      (cx' : Context H)
  /-- A node is invoked, and its task polled for the first time if it leaves one. -/
  | visit (sequence : Sequence H) (nested : NestedId) (position : Nat) (entry : SequenceEntry H)
      (parallel : Bool) (cx : Context H) (outcome : Outcome H) (cx' : Context H)
  /-- Pending branches are polled, one after another. -/
  | branches (tasks : List (Task H)) (cx : Context H) (pending : List (Task H)) (finished : Nat)
      (cx' : Context H)
  /-- A sequence goes on in list order from the cursor. -/
  | walk (sequence : Sequence H) (nested : NestedId) (cx : Context H) (progress : Progress)
      (current : Option (Task H)) (cx' : Context H)
  /-- A sequence goes on with its suspended node, if there is one. -/
  | resume (sequence : Sequence H) (nested : NestedId) (current : Option (Task H))
      (cx : Context H) (progress : Progress) (current' : Option (Task H)) (cx' : Context H)
  /-- A run takes one step. -/
  | step (run : SequenceRun H) (playback : Playback H) (progress : Progress)
      (run' : SequenceRun H) (playback' : Playback H)
  /-- A nested sequence goes on with its passes. -/
  | passes (ticket : Nat) (passes : Passes H (Task H)) (playback : Playback H)
      (progress : Progress) (passes' : Passes H (Task H)) (playback' : Playback H)

/-- Given what the job names, the scheduler returns what the job names. -/
inductive Job.Returns : Job H → Prop
  /-- A task is not done unless its work is. -/
  | pollPending {task : Task H} {cx cx' : Context H} {work : Work H (Task H)} :
      Returns (.work task.ticket task.work (cx.record (.polled task.ticket)) .pending work cx') →
      Returns (.poll task cx .pending { task with finished := false, work } cx')
  /-- A task is done when its work is. -/
  | pollDone {task : Task H} {cx cx' : Context H} {work : Work H (Task H)} :
      Returns (.work task.ticket task.work (cx.record (.polled task.ticket)) .done work cx') →
      Returns (.poll task cx .done { task with finished := true, work }
        (cx'.record (.completed task.ticket)))
  /-- Waiting for a point in time. -/
  | untilTime {ticket : Nat} {deadline : Float} {cx : Context H} :
      Returns (.work ticket (.untilTime deadline) cx
        (.doneIf (deadline ≤ cx.playback.clock.elapsed + timeTolerance)) (.untilTime deadline) cx)
  /-- Waiting for a step. -/
  | untilFrame {ticket frame : Nat} {cx : Context H} :
      Returns (.work ticket (.untilFrame frame) cx
        (.doneIf (frame ≤ cx.playback.clock.frame)) (.untilFrame frame) cx)
  /-- Waiting for a parameter. -/
  | untilParameter {ticket : Nat} {name : String} {expected : Bool} {cx : Context H} :
      Returns (.work ticket (.untilParameter name expected) cx
        (.doneIf (cx.parameterIs name expected)) (.untilParameter name expected) cx)
  /-- Host work. -/
  | hosted {ticket : Nat} {w w' : H.Work} {cx : Context H} {reaction : Reaction H.Note}
      {progress : Progress} :
      H.poll w cx.surroundings = (reaction, progress, w') →
      Returns (.work ticket (.hosted w) cx progress (.hosted w') (cx.absorb reaction))
  /-- A block is done when its join is, and then moves the cursor to its last node. -/
  | block {ticket : Nat} {block : Block H (Task H)} {cx cx' : Context H} {join : Join (Task H)} :
      Returns (.join block.sequence block.nested block.first block.stop block.join cx join cx') →
      Returns (.work ticket (.block block) cx (.doneIf join.isDone)
        (.block { block with join := some join }) (cx'.moveToIf join.isDone (block.stop - 1)))
  /-- A nested sequence works on a cursor of its own. -/
  | nested {ticket : Nat} {passes passes' : Passes H (Task H)} {cx : Context H}
      {progress : Progress} {playback : Playback H} :
      Returns (.passes ticket passes cx.playback progress passes' playback) →
      Returns (.work ticket (.passes passes) cx progress (.passes passes') { cx with playback })
  /-- A join that is under way polls its branches. -/
  | joinPolled {sequence : Sequence H} {nested : NestedId} {first stop finished : Nat}
      {join : Join (Task H)} {cx cx' : Context H} {pending : List (Task H)} :
      Returns (.branches join.branches cx pending finished cx') →
      Returns (.join sequence nested first stop (some join) cx (join.update pending finished)
        (cx'.record (.joinPolled (join.completed + finished) join.started)))
  /-- A join that is new starts the nodes of its range. -/
  | joinStarted {sequence : Sequence H} {nested : NestedId} {first stop : Nat}
      {cx cx' : Context H} {join' : Join (Task H)} :
      Returns (.fork sequence nested ((sequence.nodes.zipIdx.drop first).take (stop - first)) first
        {} cx join' cx') →
      Returns (.join sequence nested first stop none cx join' cx')
  /-- No node is left. -/
  | forkEnd {sequence : Sequence H} {nested : NestedId} {next : Nat} {join : Join (Task H)}
      {cx : Context H} :
      Returns (.fork sequence nested [] next join cx join cx)
  /-- The node is taken out of the join. -/
  | forkPast {sequence : Sequence H} {nested : NestedId} {entry : SequenceEntry H}
      {position next : Nat} {rest : List (SequenceEntry H × Nat)} {join join' : Join (Task H)}
      {cx cx' : Context H} :
      position < next →
      Returns (.fork sequence nested rest next join cx join' cx') →
      Returns (.fork sequence nested ((entry, position) :: rest) next join cx join' cx')
  /-- A stop has been requested. -/
  | forkStopped {sequence : Sequence H} {nested : NestedId} {entry : SequenceEntry H}
      {position next : Nat} {rest : List (SequenceEntry H × Nat)} {join : Join (Task H)}
      {cx : Context H} :
      next ≤ position → cx.stopRequested = true →
      Returns (.fork sequence nested ((entry, position) :: rest) next join cx join cx)
  /-- The node is started as a branch, and the fork goes on behind the cursor. -/
  | forkNext {sequence : Sequence H} {nested : NestedId} {entry : SequenceEntry H}
      {position next : Nat} {rest : List (SequenceEntry H × Nat)} {join join' : Join (Task H)}
      {outcome : Outcome H} {cx cx₁ cx' : Context H} :
      next ≤ position → cx.stopRequested = false →
      Returns (.visit sequence nested position entry true (cx.moveTo position) outcome cx₁) →
      Returns (.fork sequence nested rest (cx₁.nextBranch position) (join.count outcome) cx₁
        join' cx') →
      Returns (.fork sequence nested ((entry, position) :: rest) next join cx join' cx')
  /-- The node is finished at once. -/
  | visitFinished {sequence : Sequence H} {nested : NestedId} {position : Nat}
      {entry : SequenceEntry H} {parallel : Bool} {cx cx₁ : Context H} :
      cx.invoke sequence nested position entry parallel = (none, cx₁) →
      Returns (.visit sequence nested position entry parallel cx .done cx₁)
  /-- The node's task is done in its first poll. -/
  | visitDone {sequence : Sequence H} {nested : NestedId} {position : Nat}
      {entry : SequenceEntry H} {parallel : Bool} {task task' : Task H} {cx cx₁ cx₂ : Context H} :
      cx.invoke sequence nested position entry parallel = (some task, cx₁) →
      Returns (.poll task cx₁ .done task' cx₂) →
      Returns (.visit sequence nested position entry parallel cx .done (cx₂.release task'))
  /-- The node's task is still pending after its first poll. -/
  | visitPending {sequence : Sequence H} {nested : NestedId} {position : Nat}
      {entry : SequenceEntry H} {parallel : Bool} {task task' : Task H} {cx cx₁ cx₂ : Context H} :
      cx.invoke sequence nested position entry parallel = (some task, cx₁) →
      Returns (.poll task cx₁ .pending task' cx₂) →
      Returns (.visit sequence nested position entry parallel cx (.pending task') cx₂)
  /-- No branch is left. -/
  | branchesEnd {cx : Context H} : Returns (.branches [] cx [] 0 cx)
  /-- A branch is done. -/
  | branchesDone {task task' : Task H} {rest pending : List (Task H)} {finished : Nat}
      {cx cx₁ cx' : Context H} :
      Returns (.poll task cx .done task' cx₁) →
      Returns (.branches rest (cx₁.release task') pending finished cx') →
      Returns (.branches (task :: rest) cx pending (finished + 1) cx')
  /-- A branch is still pending. -/
  | branchesPending {task task' : Task H} {rest pending : List (Task H)} {finished : Nat}
      {cx cx₁ cx' : Context H} :
      Returns (.poll task cx .pending task' cx₁) →
      Returns (.branches rest cx₁ pending finished cx') →
      Returns (.branches (task :: rest) cx (task' :: pending) finished cx')
  /-- A stop has been requested. -/
  | walkStopped {sequence : Sequence H} {nested : NestedId} {cx : Context H} :
      cx.stopRequested = true →
      Returns (.walk sequence nested cx .pending none cx)
  /-- The cursor has left the list. -/
  | walkEnd {sequence : Sequence H} {nested : NestedId} {cx : Context H} :
      cx.stopRequested = false → cx.nextNode? sequence = none →
      Returns (.walk sequence nested cx .done none cx)
  /-- The node at the cursor is done, and the sequence goes on behind the cursor. -/
  | walkNext {sequence : Sequence H} {nested : NestedId} {entry : SequenceEntry H}
      {position : Nat} {progress : Progress} {current : Option (Task H)}
      {cx cx₁ cx' : Context H} :
      cx.stopRequested = false → cx.nextNode? sequence = some (position, entry) →
      Returns (.visit sequence nested position entry false cx .done cx₁) →
      Returns (.walk sequence nested (cx₁.advance 1) progress current cx') →
      Returns (.walk sequence nested cx progress current cx')
  /-- The node at the cursor suspends. -/
  | walkPending {sequence : Sequence H} {nested : NestedId} {entry : SequenceEntry H}
      {position : Nat} {task : Task H} {cx cx₁ : Context H} :
      cx.stopRequested = false → cx.nextNode? sequence = some (position, entry) →
      Returns (.visit sequence nested position entry false cx (.pending task) cx₁) →
      Returns (.walk sequence nested cx .pending (some task) cx₁)
  /-- No node is suspended. -/
  | resumeWalk {sequence : Sequence H} {nested : NestedId} {progress : Progress}
      {current : Option (Task H)} {cx cx' : Context H} :
      Returns (.walk sequence nested cx progress current cx') →
      Returns (.resume sequence nested none cx progress current cx')
  /-- The suspended node is done. -/
  | resumeDone {sequence : Sequence H} {nested : NestedId} {progress : Progress}
      {current : Option (Task H)} {task task' : Task H} {cx cx₁ cx' : Context H} :
      Returns (.poll task cx .done task' cx₁) →
      Returns (.walk sequence nested ((cx₁.release task').advance 1) progress current cx') →
      Returns (.resume sequence nested (some task) cx progress current cx')
  /-- The suspended node stays suspended. -/
  | resumePending {sequence : Sequence H} {nested : NestedId} {task task' : Task H}
      {cx cx₁ : Context H} :
      Returns (.poll task cx .pending task' cx₁) →
      Returns (.resume sequence nested (some task) cx .pending (some task') cx₁)
  /-- A run in list order takes a step. -/
  | stepSequential {sequence : Sequence H} {nested : NestedId} {cursor : Cursor}
      {playback : Playback H} {progress : Progress} {current current' : Option (Task H)}
      {cx : Context H} :
      Returns (.resume sequence nested current ⟨cursor, playback⟩ progress current' cx) →
      Returns (.step ⟨sequence, nested, cursor, .sequential current⟩ playback progress
        ⟨sequence, nested, cx.cursor, .sequential current'⟩ cx.playback)
  /-- A parallel run takes a step; when it is done the cursor moves behind the last node. -/
  | stepParallel {sequence : Sequence H} {nested : NestedId} {cursor : Cursor}
      {playback : Playback H} {join : Option (Join (Task H))} {join' : Join (Task H)}
      {cx : Context H} :
      Returns (.join sequence nested 0 sequence.length join ⟨cursor, playback⟩ join' cx) →
      Returns (.step ⟨sequence, nested, cursor, .parallel join⟩ playback (.doneIf join'.isDone)
        ⟨sequence, nested, (cx.moveToIf join'.isDone sequence.length).cursor,
          .parallel (some join')⟩ cx.playback)
  /-- The current pass suspends. -/
  | passesPending {ticket : Nat} {p : Passes H (Task H)} {playback playback₁ playback' : Playback H}
      {run run' : SequenceRun H} {suspended : Bool} :
      p.current ticket playback = (run, suspended, playback₁) →
      Returns (.step run playback₁ .pending run' playback') →
      Returns (.passes ticket p playback .pending { p with run := some run', suspended := true }
        playback')
  /-- The current pass is done, and it is the last one. -/
  | passesFinished {ticket : Nat} {p : Passes H (Task H)}
      {playback playback₁ playback₂ : Playback H} {run run' : SequenceRun H} {suspended : Bool} :
      p.current ticket playback = (run, suspended, playback₁) →
      Returns (.step run playback₁ .done run' playback₂) →
      Passes.continuation p.loops (p.completePass suspended).completed suspended = .finish →
      Returns (.passes ticket p playback .done (p.completePass suspended)
        (p.closePass ticket run' playback₂))
  /-- The current pass is done, and the next one waits for the next poll. -/
  | passesYield {ticket : Nat} {p : Passes H (Task H)}
      {playback playback₁ playback₂ : Playback H} {run run' : SequenceRun H} {suspended : Bool} :
      p.current ticket playback = (run, suspended, playback₁) →
      Returns (.step run playback₁ .done run' playback₂) →
      Passes.continuation p.loops (p.completePass suspended).completed suspended = .yield →
      Returns (.passes ticket p playback .pending (p.completePass suspended)
        (p.closePass ticket run' playback₂))
  /-- The current pass is done, and the next one starts at once. -/
  | passesAgain {ticket : Nat} {p p' : Passes H (Task H)} {progress : Progress}
      {playback playback₁ playback₂ playback' : Playback H} {run run' : SequenceRun H}
      {suspended : Bool} :
      p.current ticket playback = (run, suspended, playback₁) →
      Returns (.step run playback₁ .done run' playback₂) →
      Passes.continuation p.loops (p.completePass suspended).completed suspended = .again →
      Returns (.passes ticket (p.completePass suspended) (p.closePass ticket run' playback₂)
        progress p' playback') →
      Returns (.passes ticket p playback progress p' playback')

theorem Progress.doneIf_eq_done {c : Bool} : Progress.doneIf c = .done ↔ c = true := by
  cases c <;> simp [Progress.doneIf]

namespace Job.Returns

/-- A poll is what it makes of the task's work. -/
theorem poll_inv {task task' : Task H} {cx cx' : Context H} {progress : Progress}
    (h : Returns (.poll task cx progress task' cx')) :
    ∃ work cx₁, Returns (.work task.ticket task.work (cx.record (.polled task.ticket)) progress
        work cx₁) ∧
      task' = ⟨task.ticket, progress.isDone, work⟩ ∧
      cx' = if progress.isDone then cx₁.record (.completed task.ticket) else cx₁ := by
  cases h with
  | pollPending hw => exact ⟨_, _, hw, rfl, rfl⟩
  | pollDone hw => exact ⟨_, _, hw, rfl, rfl⟩

/-- The work of a block is its join. -/
theorem block_inv {ticket : Nat} {block : Block H (Task H)} {work : Work H (Task H)}
    {cx cx' : Context H} {progress : Progress}
    (h : Returns (.work ticket (.block block) cx progress work cx')) :
    ∃ join cx₁, Returns (.join block.sequence block.nested block.first block.stop block.join cx
        join cx₁) ∧
      progress = .doneIf join.isDone ∧ work = .block { block with join := some join } ∧
      cx' = cx₁.moveToIf join.isDone (block.stop - 1) := by
  cases h with
  | block hjoin => exact ⟨_, _, hjoin, rfl, rfl, rfl⟩

end Job.Returns

end Sequencer
