import Mathlib.Data.List.Chain
import Sequencer.Proofs.Binding.Allot
import Sequencer.Proofs.Timing.Loops

/-!
# Sequencer.Proofs.Playback.Laps

The passes of a nested sequence, poll by poll. What one poll does to one pass is a `Lap`, so that a
pass is a succession of laps, one in each poll from its start to its end.

* `Lap.Follows`: a lap goes on with the pass of the one before it, or starts the next pass;
* `LoopCount.goesOn`: the laps after which the poll goes on with another;
* `Passes.At`: what the counter and the flag of a loop say, in front of each lap.

`nested_passes` describes all polls of a nested sequence from its invocation on.
-/

namespace Sequencer

variable {H : Host}

/-- A poll of a task. -/
structure Poll (H : Host) where
  /-- The context before. -/
  before : Context H
  /-- What the task reports. -/
  progress : Progress
  /-- The context afterwards. -/
  after : Context H

/-- A task is polled again and again, until it is done. -/
inductive Task.Polled : Task H → List (Poll H) → Task H → Prop
  | nil (task : Task H) : Polled task [] task
  | last {task task' : Task H} {cx cx' : Context H} :
      (Job.poll task cx .done task' cx').Returns → Polled task [⟨cx, .done, cx'⟩] task'
  | cons {task task₁ task' : Task H} {cx cx₁ : Context H} {polls : List (Poll H)} :
      (Job.poll task cx .pending task₁ cx₁).Returns → Polled task₁ polls task' →
      Polled task (⟨cx, .pending, cx₁⟩ :: polls) task'

/-! ### Laps -/

/-- What one poll does to one pass. -/
structure Lap (H : Host) where
  /-- Which pass it is, from one on. -/
  number : Nat
  /-- Is the pass started in this poll? -/
  starts : Bool
  /-- The pass before. -/
  run : SequenceRun H
  /-- What the pass comes to. -/
  progress : Progress
  /-- The pass afterwards. -/
  left : SequenceRun H

namespace Lap

/-- A suspended pass goes on where it was left. Behind a pass that is done the next one starts. -/
def Follows (inner : Sequence H) (identity : NestedId) (lap next : Lap H) : Prop :=
  match lap.progress with
  | .pending => next.number = lap.number ∧ next.starts = false ∧ next.run = lap.left
  | .done => next.number = lap.number + 1 ∧ next.starts = true ∧ next.run = .new inner identity

/-- The pass takes a step. -/
def Steps (ticket : Nat) (name : String) (lap : Lap H) (pb pb' : Playback H) : Prop :=
  ∃ pb₁, (Job.step lap.run (if lap.starts then pb.record (.passStarted ticket) else pb)
      lap.progress lap.left pb₁).Returns ∧
    pb' = if lap.progress.isDone then
        (pb₁.abandon lap.left.held).record
          (.passEnded ticket name (min lap.number Passes.maxCompleted))
      else pb₁

/-- The laps of a poll are run one after another. -/
inductive Runs (ticket : Nat) (name : String) : List (Lap H) → Playback H → Playback H → Prop
  | nil (pb : Playback H) : Runs ticket name [] pb pb
  | cons {lap : Lap H} {laps : List (Lap H)} {pb pb₁ pb' : Playback H} :
      lap.Steps ticket name pb pb₁ → Runs ticket name laps pb₁ pb' →
      Runs ticket name (lap :: laps) pb pb'

end Lap

namespace LoopCount

/-- Does the loop have a pass of this number? -/
def Admits (loops : LoopCount) (number : Nat) : Prop :=
  match loops with
  | times count _ => number ≤ count
  | forever => True

/-- Does the poll go on with another pass after this lap? -/
def goesOn (loops : LoopCount) (lap : Lap H) : Bool :=
  lap.progress.isDone && match loops with
    | times count _ => decide (lap.number < count)
    | forever => !lap.starts

/-- What the poll reports if this is its last lap. -/
def report (loops : LoopCount) (lap : Lap H) : Progress :=
  match loops with
  | times _ _ => lap.progress
  | forever => .pending

/-- The poll goes on up to a lap after which it does not, and reports what that has come to. -/
inductive Round (loops : LoopCount) : List (Lap H) → Progress → Prop
  | last {lap : Lap H} {progress : Progress} : loops.goesOn lap = false →
      loops.report lap = progress → Round loops [lap] progress
  | cons {lap : Lap H} {laps : List (Lap H)} {progress : Progress} :
      loops.goesOn lap = true → Round loops laps progress → Round loops (lap :: laps) progress

variable {loops : LoopCount} {laps : List (Lap H)} {progress : Progress} {lap : Lap H}

theorem done_of_goesOn (h : loops.goesOn lap = true) : lap.progress = .done := by
  cases hlap : lap.progress with
  | done => rfl
  | pending => simp [goesOn, hlap, Progress.isDone] at h

theorem Round.ne_nil (h : loops.Round laps progress) : laps ≠ [] := by
  cases h <;> simp

/-- Each lap that is not the last of its poll ends a pass. -/
theorem Round.done_of_mem_dropLast (h : loops.Round laps progress) :
    ∀ lap ∈ laps.dropLast, lap.progress = .done := by
  induction h with
  | last => simp
  | cons hgoes hround ih =>
      rw [List.dropLast_cons_of_ne_nil hround.ne_nil]
      exact List.forall_mem_cons.mpr ⟨done_of_goesOn hgoes, ih⟩

/-- A poll with which the task is not done ends where a pass is suspended or the loop yields. -/
theorem Round.yields (h : loops.Round laps .pending) :
    ∀ lap ∈ laps.getLast?, lap.progress = .done → loops = .forever ∧ lap.starts = true := by
  generalize hprogress : Progress.pending = progress at h
  induction h with
  | @last lap _ hends hreport =>
      subst hprogress
      simp only [List.getLast?_singleton, Option.mem_some_iff, forall_eq']
      intro hdone
      cases loops with
      | times => simp [report, hdone] at hreport
      | forever => simpa [goesOn, hdone, Progress.isDone] using hends
  | cons _ hround ih =>
      rw [List.getLast?_cons_of_ne_nil hround.ne_nil]
      exact ih hprogress

/-- A loop of so many passes is done in the poll in which the last of these ends. -/
theorem Round.done_iff {count : Nat} {inRange : 0 < count ∧ count ≤ 4294967295}
    (h : (times count inRange).Round laps progress) (hadmits : ∀ lap ∈ laps, lap.number ≤ count) :
    progress = .done ↔ ∃ lap ∈ laps, lap.number = count ∧ lap.progress = .done := by
  induction h with
  | @last lap _ hends hreport =>
      have hnumber := hadmits lap (List.mem_singleton.mpr rfl)
      subst hreport
      simp only [List.mem_singleton, exists_eq_left, report]
      refine ⟨fun hdone => ⟨?_, hdone⟩, And.right⟩
      have hle : count ≤ lap.number := by simpa [goesOn, hdone, Progress.isDone] using hends
      omega
  | @cons lap laps _ hgoes _ ih =>
      have hlt : lap.number < count := by
        simp only [goesOn, Bool.and_eq_true, decide_eq_true_eq] at hgoes
        exact hgoes.2
      rw [ih fun lap hlap => hadmits lap (List.mem_cons_of_mem _ hlap)]
      simp only [List.mem_cons, exists_eq_or_imp]
      exact ⟨.inr, fun h => h.resolve_left fun hlast => by omega⟩

/-- A loop without end goes on only after a pass that was started in an earlier poll. -/
theorem Round.isChain_starts (h : forever.Round laps progress) :
    laps.IsChain fun lap _ => lap.starts = false := by
  induction h with
  | last => exact .singleton _
  | cons hgoes _ ih =>
      refine ih.cons fun _ _ => ?_
      simp only [goesOn, Bool.and_eq_true, Bool.not_eq_true'] at hgoes
      exact hgoes.2

theorem Round.pending_of_forever (h : forever.Round laps progress) : progress = .pending := by
  induction h with
  | last _ hreport => exact hreport.symm
  | cons _ _ ih => exact ih

end LoopCount

/-! ### The counter and the flag -/

namespace Passes

/-- The passes of a loop over `inner` of which so many are past. While there is a current pass, the
flag tells that it is suspended. -/
structure At (p : Passes H (Task H)) (inner : Sequence H) (identity : NestedId)
    (loops : LoopCount) (past : Nat) : Prop where
  admits : loops.Admits (past + 1)
  sequence : p.sequence = inner
  identity : p.identity = identity
  loops : p.loops = loops
  completed : p.completed = min past maxCompleted
  suspended : p.run.isSome = true → p.suspended = true

/-- The lap that the passes go on with. -/
structure Begins (p : Passes H (Task H)) (past : Nat) (lap : Lap H) : Prop where
  number : lap.number = past + 1
  starts : lap.starts = p.run.isNone
  run : lap.run = p.next

variable {p : Passes H (Task H)} {inner : Sequence H} {identity : NestedId} {loops : LoopCount}
  {past ticket : Nat} {pb pb₁ pb₂ : Playback H} {run run' : SequenceRun H} {suspended : Bool}

/-- The lap in which the current pass takes a step. -/
def lap (p : Passes H (Task H)) (past : Nat) (progress : Progress) (left : SequenceRun H) : Lap H :=
  ⟨past + 1, p.run.isNone, p.next, progress, left⟩

theorem begins_lap (p : Passes H (Task H)) (past : Nat) (progress : Progress)
    (left : SequenceRun H) : p.Begins past (p.lap past progress left) := ⟨rfl, rfl, rfl⟩

namespace At

/-- The current pass is the next one, and it is suspended if it is not new. -/
theorem current (hp : p.At inner identity loops past)
    (h : p.current ticket pb = (run, suspended, pb₁)) :
    run = p.next ∧ suspended = !p.run.isNone ∧
      pb₁ = if p.run.isNone then pb.record (.passStarted ticket) else pb := by
  unfold Passes.current at h
  unfold next
  cases hrun : p.run with
  | none =>
      rw [hrun] at h
      cases h
      exact ⟨rfl, rfl, rfl⟩
  | some r =>
      have hsuspended := hp.suspended (by rw [hrun]; rfl)
      rw [hrun] at h
      cases h
      exact ⟨rfl, hsuspended, rfl⟩

/-- The counter stays in the range, in which all counts of passes are. -/
theorem completed_completePass (hp : p.At inner identity loops past) (suspended : Bool) :
    (p.completePass suspended).completed = min (past + 1) maxCompleted := by
  have := hp.completed
  simp only [completePass]
  omega

/-- What follows a pass depends on its number and on whether it is new. -/
theorem continuation_eq (hp : p.At inner identity loops past) (left : SequenceRun H) :
    continuation p.loops (p.completePass (!p.run.isNone)).completed (!p.run.isNone)
      = if loops.goesOn (p.lap past .done left) then .again
        else match loops with
          | .times _ _ => .finish
          | .forever => .yield := by
  rw [hp.completed_completePass, hp.loops]
  cases loops with
  | times count inRange =>
      have hle : count ≤ min (past + 1) maxCompleted ↔ ¬ past + 1 < count := by
        simp only [maxCompleted]
        omega
      by_cases hlt : past + 1 < count <;>
        simp [continuation, LoopCount.goesOn, lap, hle, Progress.isDone, hlt]
  | forever => simp [continuation, LoopCount.goesOn, lap, Progress.isDone]

/-- The passes behind a pass that is not the last one. -/
theorem completePass (hp : p.At inner identity loops past) (suspended : Bool)
    (hadmits : loops.Admits (past + 2)) :
    (p.completePass suspended).At inner identity loops (past + 1) where
  sequence := hp.sequence
  identity := hp.identity
  loops := hp.loops
  completed := hp.completed_completePass suspended
  suspended := by simp [Passes.completePass]
  admits := hadmits

/-- The lap behind a pass that is done starts the next one. -/
theorem follows_completePass (hp : p.At inner identity loops past) (left : SequenceRun H)
    {next : Lap H} (h : (p.completePass suspended).Begins (past + 1) next) :
    (p.lap past .done left).Follows inner identity next := by
  refine ⟨h.number, h.starts, h.run.trans ?_⟩
  rw [← hp.sequence, ← hp.identity]
  rfl

/-- The lap of a step. -/
theorem steps_lap (hp : p.At inner identity loops past) {progress : Progress}
    (hcurrent : p.current ticket pb = (run, suspended, pb₁))
    (hstep : (Job.step run pb₁ progress run' pb₂).Returns) :
    (p.lap past progress run').Steps ticket inner.name pb
      (if progress.isDone then p.closePass ticket run' pb₂ else pb₂) := by
  obtain ⟨rfl, -, rfl⟩ := hp.current hcurrent
  refine ⟨pb₂, hstep, ?_⟩
  have hcompleted : min (p.completed + 1) maxCompleted = min (past + 1) maxCompleted :=
    hp.completed_completePass false
  rw [closePass, hcompleted, hp.sequence]
  rfl

/-- If the next pass starts at once, the loop has it. -/
theorem goesOn (hp : p.At inner identity loops past) (left : SequenceRun H)
    (h : continuation p.loops (p.completePass (!p.run.isNone)).completed (!p.run.isNone) = .again) :
    loops.goesOn (p.lap past .done left) = true ∧ loops.Admits (past + 2) := by
  rw [hp.continuation_eq left] at h
  split at h
  next hgoes =>
    refine ⟨hgoes, ?_⟩
    cases loops with
    | times count =>
        simp only [LoopCount.goesOn, Bool.and_eq_true, decide_eq_true_eq] at hgoes
        exact hgoes.2
    | forever => trivial
  next => cases loops <;> cases h

/-- If no further pass starts, the pass was the last one. -/
theorem finishes (hp : p.At inner identity loops past) (left : SequenceRun H)
    (h : continuation p.loops (p.completePass (!p.run.isNone)).completed (!p.run.isNone)
      = .finish) :
    loops.goesOn (p.lap past .done left) = false ∧
      loops.report (p.lap past .done left) = .done := by
  rw [hp.continuation_eq left] at h
  split at h
  next => cases h
  next hgoes =>
    cases loops with
    | times count => exact ⟨Bool.not_eq_true _ ▸ hgoes, rfl⟩
    | forever => cases h

/-- If the next pass waits, the loop is without end. -/
theorem yields (hp : p.At inner identity loops past) (left : SequenceRun H)
    (h : continuation p.loops (p.completePass (!p.run.isNone)).completed (!p.run.isNone) = .yield) :
    loops.goesOn (p.lap past .done left) = false ∧ loops = .forever := by
  rw [hp.continuation_eq left] at h
  split at h
  next => cases h
  next hgoes =>
    cases loops with
    | times count => cases h
    | forever => exact ⟨Bool.not_eq_true _ ▸ hgoes, rfl⟩

/-- A poll is a round of laps. -/
theorem round (hp : p.At inner identity loops past) {progress : Progress}
    {p' : Passes H (Task H)} {pb' : Playback H}
    (h : (Job.passes ticket p pb progress p' pb').Returns) :
    ∃ laps, Lap.Runs ticket inner.name laps pb pb' ∧ loops.Round laps progress ∧
      (∀ lap ∈ laps, loops.Admits lap.number) ∧ laps.IsChain (Lap.Follows inner identity) ∧
      (∀ lap ∈ laps.head?, p.Begins past lap) ∧
      (progress = .pending → ∃ past', p'.At inner identity loops past' ∧
        ∀ lap ∈ laps.getLast?, ∀ next, p'.Begins past' next → lap.Follows inner identity next) := by
  generalize hjob : Job.passes ticket p pb progress p' pb' = j at h
  -- Each rule is a lap: the last one of the round, unless the next pass starts at once.
  induction h generalizing p pb past with
  | @passesPending _ p _ _ _ _ run' _ hcurrent hstep =>
      cases hjob
      have hsteps := hp.steps_lap hcurrent hstep
      have hreport : loops.report (p.lap past .pending run') = .pending := by cases loops <;> rfl
      refine ⟨[p.lap past .pending run'], .cons hsteps (.nil _), .last rfl hreport,
        List.forall_mem_singleton.mpr hp.admits, .singleton _,
        by simpa using p.begins_lap past .pending run',
        fun _ => ⟨past, ⟨hp.admits, hp.sequence, hp.identity, hp.loops, hp.completed, fun _ => rfl⟩,
          ?_⟩⟩
      simp only [List.getLast?_singleton, Option.mem_some_iff, forall_eq']
      exact fun next hnext => ⟨hnext.number, hnext.starts, hnext.run⟩
  | @passesFinished _ p _ _ _ _ run' _ hcurrent hstep hfinish =>
      cases hjob
      have hsteps := hp.steps_lap hcurrent hstep
      obtain ⟨-, rfl, -⟩ := hp.current hcurrent
      obtain ⟨hgoes, hreport⟩ := hp.finishes run' hfinish
      exact ⟨[p.lap past .done run'], .cons hsteps (.nil _), .last hgoes hreport,
        List.forall_mem_singleton.mpr hp.admits, .singleton _,
        by simpa using p.begins_lap past .done run',
        fun hpending => by cases hpending⟩
  | @passesYield _ p _ _ _ _ run' _ hcurrent hstep hyield =>
      cases hjob
      have hsteps := hp.steps_lap hcurrent hstep
      obtain ⟨-, rfl, -⟩ := hp.current hcurrent
      obtain ⟨hgoes, rfl⟩ := hp.yields run' hyield
      refine ⟨[p.lap past .done run'], .cons hsteps (.nil _), .last hgoes rfl,
        List.forall_mem_singleton.mpr hp.admits, .singleton _,
        by simpa using p.begins_lap past .done run',
        fun _ => ⟨past + 1, hp.completePass _ trivial, ?_⟩⟩
      simp only [List.getLast?_singleton, Option.mem_some_iff, forall_eq']
      exact fun next hnext => hp.follows_completePass run' hnext
  | @passesAgain _ p _ _ _ _ _ _ _ run' _ hcurrent hstep hagain _ _ ih =>
      cases hjob
      have hsteps := hp.steps_lap hcurrent hstep
      obtain ⟨-, rfl, -⟩ := hp.current hcurrent
      obtain ⟨hgoes, hadmits⟩ := hp.goesOn run' hagain
      obtain ⟨laps, hruns, hround, hall, hchain, hhead, hlast⟩ := ih (hp.completePass _ hadmits) rfl
      refine ⟨p.lap past .done run' :: laps, .cons hsteps hruns, .cons hgoes hround,
        List.forall_mem_cons.mpr ⟨hp.admits, hall⟩,
        hchain.cons fun next hnext => hp.follows_completePass run' (hhead next hnext),
        by simpa using p.begins_lap past .done run', ?_⟩
      rwa [List.getLast?_cons_of_ne_nil hround.ne_nil]
  | _ => cases hjob

end At

end Passes

/-! ### Polls -/

/-- A poll of a nested sequence takes these laps. -/
structure Poll.Takes (ticket : Nat) (name : String) (loops : LoopCount) (poll : Poll H)
    (laps : List (Lap H)) : Prop where
  /-- They are run one after another, and the cursor that the sequence around them uses stays. -/
  runs : ∃ pb, Lap.Runs ticket name laps (poll.before.playback.record (.polled ticket)) pb ∧
    poll.after = { poll.before with
      playback := if poll.progress.isDone then pb.record (.completed ticket) else pb }
  /-- No poll is idle. -/
  ne_nil : laps ≠ []
  /-- The poll goes on with the next pass where one ends. -/
  ends : ∀ lap ∈ laps.dropLast, lap.progress = .done
  /-- Only a loop without end yields to the next poll, behind a pass that was never suspended. -/
  yields : poll.progress = .pending → ∀ lap ∈ laps.getLast?, lap.progress = .done →
    loops = .forever ∧ lap.starts = true
  /-- The task is done exactly in the poll in which the last one of so many passes ends. -/
  finite : ∀ count inRange, loops = .times count inRange →
    (poll.progress = .done ↔ ∃ lap ∈ laps, lap.number = count ∧ lap.progress = .done)
  /-- A loop without end is never done. It takes a second pass only behind one that was suspended
  in an earlier poll, and no third. -/
  endless : loops = .forever → poll.progress = .pending ∧ laps.length ≤ 2 ∧
    laps.IsChain fun lap _ => lap.starts = false

section

variable {inner : Sequence H} {identity : NestedId} {loops : LoopCount} {laps : List (Lap H)}

/-- A pass starts in the poll in which the one before it has ended, so only the first pass of a
poll can be an older one. -/
theorem LoopCount.Round.length_le_two {progress : Progress} (h : forever.Round laps progress)
    (hchain : laps.IsChain (Lap.Follows inner identity)) : laps.length ≤ 2 := by
  match laps, hchain, h.isChain_starts with
  | [], _, _ | [_], _, _ | [_, _], _, _ => simp
  | first :: second :: _ :: _, hchain, hstarts =>
      have hfollows := (List.isChain_cons_cons.mp hchain).1
      have hold := (List.isChain_cons_cons.mp (List.isChain_cons_cons.mp hstarts).2).1
      have hdone := h.done_of_mem_dropLast first (by simp)
      rw [Lap.Follows, hdone] at hfollows
      exact absurd (hfollows.2.1.symm.trans hold) (by simp)

/-- If no pass is ever suspended, each lap starts one. -/
theorem Lap.starts_of_isChain (hchain : laps.IsChain (Lap.Follows inner identity))
    (hhead : ∀ lap ∈ laps.head?, lap.starts = true) (hdone : ∀ lap ∈ laps, lap.progress = .done) :
    ∀ lap ∈ laps, lap.starts = true := by
  induction hchain with
  | nil => simp
  | singleton lap => simpa using hhead
  | @cons_cons lap next rest hfollows _ ih =>
      obtain ⟨hlap, hrest⟩ := List.forall_mem_cons.mp hdone
      rw [Lap.Follows, hlap] at hfollows
      refine List.forall_mem_cons.mpr ⟨hhead lap (by simp), ih ?_ hrest⟩
      simpa using hfollows.2.1

namespace Passes.At

variable {p : Passes H (Task H)} {past ticket : Nat} {finished : Bool}

/-- One poll of a nested sequence. -/
theorem takes (hp : p.At inner identity loops past) {progress : Progress} {task' : Task H}
    {cx cx' : Context H}
    (h : (Job.poll ⟨ticket, finished, .passes p⟩ cx progress task' cx').Returns) :
    ∃ laps, Poll.Takes ticket inner.name loops ⟨cx, progress, cx'⟩ laps ∧
      laps.IsChain (Lap.Follows inner identity) ∧ (∀ lap ∈ laps.head?, p.Begins past lap) ∧
      (progress = .pending → ∃ p' past', task' = ⟨ticket, false, .passes p'⟩ ∧
        p'.At inner identity loops past' ∧
        ∀ lap ∈ laps.getLast?, ∀ next, p'.Begins past' next → lap.Follows inner identity next) := by
  obtain ⟨work, cx₁, hwork, rfl, rfl⟩ := h.poll_inv
  cases hwork with
  | @nested _ _ p' _ _ playback hpasses =>
      obtain ⟨laps, hruns, hround, hadmits, hchain, hhead, hlast⟩ := hp.round hpasses
      refine ⟨laps, ?_, hchain, hhead, fun hpending => ?_⟩
      · refine ⟨⟨playback, hruns, ?_⟩, hround.ne_nil, hround.done_of_mem_dropLast, ?_, ?_, ?_⟩
        · cases progress <;> rfl
        · rintro rfl
          exact hround.yields
        · rintro count inRange rfl
          exact hround.done_iff hadmits
        · rintro rfl
          exact ⟨hround.pending_of_forever, hround.length_le_two hchain, hround.isChain_starts⟩
      · obtain ⟨past', hp', hfollows⟩ := hlast hpending
        subst hpending
        exact ⟨p', past', rfl, hp', hfollows⟩

/-- Any number of polls of a nested sequence. -/
theorem polled (hp : p.At inner identity loops past) {task task' : Task H} {polls : List (Poll H)}
    (htask : task = ⟨ticket, finished, .passes p⟩) (h : task.Polled polls task') :
    ∃ laps : List (List (Lap H)), List.Forall₂ (Poll.Takes ticket inner.name loops) polls laps ∧
      laps.flatten.IsChain (Lap.Follows inner identity) ∧
      ∀ lap ∈ laps.flatten.head?, p.Begins past lap := by
  induction h generalizing p past finished with
  | nil => exact ⟨[], .nil, .nil, by simp⟩
  | last hpoll =>
      subst htask
      obtain ⟨laps, htakes, hchain, hhead, -⟩ := hp.takes hpoll
      exact ⟨[laps], .cons htakes .nil, by simpa using hchain, by simpa using hhead⟩
  | cons hpoll _ ih =>
      subst htask
      obtain ⟨laps, htakes, hchain, hhead, hnext⟩ := hp.takes hpoll
      obtain ⟨p', past', rfl, hp', hlast⟩ := hnext rfl
      obtain ⟨later, hlater, hchain', hhead'⟩ := ih hp' rfl
      refine ⟨laps :: later, .cons htakes hlater, ?_, ?_⟩
      · rw [List.flatten_cons]
        exact List.isChain_append.mpr
          ⟨hchain, hchain', fun lap hlap next hnext => hlast lap hlap next (hhead' next hnext)⟩
      · rw [List.flatten_cons, List.head?_append_of_ne_nil _ htakes.ne_nil]
        exact hhead

end Passes.At

end

/-- **Nested passes.** Every poll of a nested sequence takes some laps (`Poll.Takes`), of which each
goes on with the pass of the one before it, or starts the next pass behind a pass that is done, on a
new cursor (`Lap.Follows`); so no two passes overlap. The first lap starts the first pass. A loop of
so many passes is done in the poll in which the last of these ends, and a loop without end is never
done. If none of its passes is ever suspended, each poll completes one. -/
theorem nested_passes {s inner : Sequence H} {nested identity : NestedId} {position : Nat}
    {entry : SequenceEntry H} {loops : LoopCount} {parallel : Bool} {task task' : Task H}
    {cx cx' : Context H} {polls : List (Poll H)}
    (hnode : entry.node = .nested inner identity loops)
    (hinvoke : cx.invoke s nested position entry parallel = (some task, cx'))
    (hpolls : task.Polled polls task') :
    ∃ laps : List (List (Lap H)),
      List.Forall₂ (Poll.Takes task.ticket inner.name loops) polls laps ∧
      laps.flatten.IsChain (Lap.Follows inner identity) ∧
      (∀ lap ∈ laps.flatten.head?, lap.number = 1 ∧ lap.starts = true ∧
        lap.run = .new inner identity) ∧
      (loops = .forever → (∀ lap ∈ laps.flatten, lap.progress = .done) →
        ∀ own ∈ laps, ∃ lap, own = [lap]) := by
  obtain ⟨work, cx₁, hstart, rfl, -⟩ := Context.invoke_some hinvoke
  rw [hnode] at hstart
  cases hstart
  have hp : (⟨inner, identity, loops, 0, none, false⟩ : Passes H (Task H)).At inner identity loops
      0 := by
    refine ⟨?_, rfl, rfl, rfl, rfl, by simp⟩
    cases loops with
    | times count inRange => exact inRange.1
    | forever => trivial
  obtain ⟨laps, htakes, hchain, hhead⟩ := hp.polled rfl hpolls
  have hfirst : ∀ lap ∈ laps.flatten.head?, lap.number = 1 ∧ lap.starts = true ∧
      lap.run = .new inner identity :=
    fun lap hlap => ⟨(hhead lap hlap).number, (hhead lap hlap).starts, (hhead lap hlap).run⟩
  refine ⟨laps, htakes, hchain, hfirst, fun hforever hdone own hown => ?_⟩
  have hstarts := Lap.starts_of_isChain hchain (fun lap hlap => (hfirst lap hlap).2.1) hdone
  obtain ⟨poll, -, hpoll⟩ := exists_of_forall₂ htakes hown
  obtain ⟨-, -, hold⟩ := hpoll.endless hforever
  match own, hpoll.ne_nil, hold with
  | [lap], _, _ => exact ⟨lap, rfl⟩
  | first :: second :: rest, _, hold =>
      have hnew := hstarts first (List.mem_flatten.mpr ⟨_, hown, by simp⟩)
      exact absurd (hnew.symm.trans (List.isChain_cons_cons.mp hold).1) (by simp)

/-- A wait that is over at once. -/
def hum : Sequence Host.none where
  id := ⟨.ofNat 1⟩
  name := "hum"
  nodes := [.new ⟨.ofNat 1⟩ (.waitFrames 0)]

/-- Two hums. -/
def refrain : Sequence Host.none where
  id := ⟨.ofNat 2⟩
  name := "refrain"
  nodes := [.new ⟨.ofNat 2⟩ (.nested hum ⟨.ofNat 3⟩ (.times 2 LoopCount.inRange_two))]

theorem nested_passes_refrain :
    ∃ (task task' : Task Host.none) (cx cx' : Context Host.none),
      (⟨.start, {}⟩ : Context Host.none).invoke refrain .root 0
        (.new ⟨.ofNat 2⟩ (.nested hum ⟨.ofNat 3⟩ (.times 2 LoopCount.inRange_two))) false
          = (some task, cx) ∧
      task.Polled [⟨cx, .done, cx'⟩] task' ∧
      ∃ laps : List (Lap Host.none), laps.IsChain (Lap.Follows hum ⟨.ofNat 3⟩) ∧
        (∀ lap ∈ laps.head?, lap.number = 1) ∧ ∃ lap ∈ laps, lap.number = 2 := by
  obtain ⟨task, cx, hinvoke⟩ : ∃ task cx, (⟨.start, {}⟩ : Context Host.none).invoke refrain .root 0
      (.new ⟨.ofNat 2⟩ (.nested hum ⟨.ofNat 3⟩ (.times 2 LoopCount.inRange_two))) false
        = (some task, cx) := ⟨_, _, rfl⟩
  have hpoll : ∃ task' cx', (Job.poll task cx .done task' cx').Returns := by
    cases hinvoke
    exact ⟨_, _, .pollDone (.nested (.passesAgain rfl
      (.stepSequential (.resumeWalk (.walkNext rfl rfl (.visitFinished rfl) (.walkEnd rfl rfl))))
      rfl (.passesFinished rfl
      (.stepSequential (.resumeWalk (.walkNext rfl rfl (.visitFinished rfl) (.walkEnd rfl rfl))))
      rfl)))⟩
  obtain ⟨task', cx', hpoll⟩ := hpoll
  have hpolls : task.Polled [⟨cx, .done, cx'⟩] task' := .last hpoll
  obtain ⟨laps, htakes, hchain, hhead, -⟩ := nested_passes rfl hinvoke hpolls
  cases htakes with
  | cons hown hnil =>
      cases hnil
      obtain ⟨lap, hlap, hnumber, -⟩ := (hown.finite 2 _ rfl).mp rfl
      rw [List.flatten_cons, List.flatten_nil, List.append_nil] at hchain hhead
      exact ⟨task, task', cx, cx', hinvoke, hpolls, _, hchain, fun lap hlap => (hhead lap hlap).1,
        lap, hlap, hnumber⟩

end Sequencer
