import Sequencer.Proofs.Playback.Rules

/-!
# Sequencer.Proofs.Playback.Adequacy

The relation of `Proofs/Playback/Rules.lean` has exactly what the bounded functions answer.

* `Job.Returns.of_poll`, `Job.Returns.of_step`: what the functions answer within some bound, the
  relation has;
* `Job.Computes`: the functions answer a job from a bound on. There is a lemma for each rule;
* `Job.Returns.computes`: what the relation has, the functions answer from some bound on. So a
  derivation shows that a step ends, and that a larger bound never changes an answer.
-/

namespace Sequencer

variable {H : Host}

/-! ### The bounded functions, one visit at a time -/

/-- A visit within a bound. -/
def Context.visit? (poll : Poller H) (cx : Context H) (sequence : Sequence H) (nested : NestedId)
    (position : Nat) (entry : SequenceEntry H) (parallel : Bool) :
    Option (Outcome H × Context H) :=
  match cx.invoke sequence nested position entry parallel with
  | (none, cx) => some (.done, cx)
  | (some task, cx) =>
    match poll task cx with
    | none => none
    | some (.pending, task, cx) => some (.pending task, cx)
    | some (.done, task, cx) => some (.done, cx.release task)

theorem Join.startFrom_cons (poll : Poller H) (sequence : Sequence H) (nested : NestedId)
    (entry : SequenceEntry H) (position : Nat) (rest : List (SequenceEntry H × Nat)) (next : Nat)
    (join : Join (Task H)) (cx : Context H) :
    Join.startFrom poll sequence nested ((entry, position) :: rest) next join cx =
      if position < next then Join.startFrom poll sequence nested rest next join cx
      else if cx.stopRequested then some (join, cx)
      else
        match (cx.moveTo position).visit? poll sequence nested position entry true with
        | none => none
        | some (outcome, cx) =>
          Join.startFrom poll sequence nested rest (cx.nextBranch position) (join.count outcome)
            cx := by
  rw [Join.startFrom, Context.visit?]
  congr 2
  rcases (cx.moveTo position).invoke sequence nested position entry true with ⟨_ | task, cx₁⟩
  · rfl
  · simp only [Join.settle]
    rcases poll task cx₁ with _ | ⟨_ | _, task', cx₂⟩ <;> rfl

theorem Run.walk_succ (poll : Poller H) (sequence : Sequence H) (nested : NestedId) (fuel : Nat)
    (cx : Context H) :
    Run.walk poll sequence nested (fuel + 1) cx =
      if cx.stopRequested then some (.pending, none, cx)
      else
        match cx.nextNode? sequence with
        | none => some (.done, none, cx)
        | some (position, entry) =>
          match cx.visit? poll sequence nested position entry false with
          | none => none
          | some (.done, cx) => Run.walk poll sequence nested fuel (cx.advance 1)
          | some (.pending task, cx) => some (.pending, some task, cx) := by
  rw [Run.walk]
  congr 1
  change (match cx.nextNode? sequence with | none => _ | some (position, entry) => _) = _
  rcases cx.nextNode? sequence with _ | ⟨position, entry⟩
  · rfl
  · simp only [Context.visit?]
    rcases cx.invoke sequence nested position entry false with ⟨_ | task, cx₁⟩
    · rfl
    · dsimp only
      rcases poll task cx₁ with _ | ⟨_ | _, task', cx₂⟩ <;> rfl

theorem Passes.poll_succ (poll : Poller H) (fuel ticket left : Nat) (p : Passes H (Task H))
    (playback : Playback H) :
    Passes.poll poll fuel ticket (left + 1) p playback =
      match p.current ticket playback with
      | (run, suspended, playback) =>
        match run.step poll fuel playback with
        | none => none
        | some (.pending, run, playback) =>
          some (.pending, { p with run := some run, suspended := true }, playback)
        | some (.done, run, playback) =>
          match Passes.continuation p.loops (p.completePass suspended).completed suspended with
          | .finish => some (.done, p.completePass suspended, p.closePass ticket run playback)
          | .yield => some (.pending, p.completePass suspended, p.closePass ticket run playback)
          | .again =>
            Passes.poll poll fuel ticket left (p.completePass suspended)
              (p.closePass ticket run playback) := by
  obtain ⟨_, _, _, _, _ | _, _⟩ := p <;> rfl

namespace Job.Returns

/-! ### What the bounded functions answer, the relation has -/

/-- A way of polling that answers only what the relation has. -/
def Sound (poll : Poller H) : Prop :=
  ∀ {task cx progress task' cx'}, poll task cx = some (progress, task', cx') →
    Returns (.poll task cx progress task' cx')

variable {poll : Poller H}

theorem of_visit (hpoll : Sound poll) {sequence : Sequence H} {nested : NestedId} {position : Nat}
    {entry : SequenceEntry H} {parallel : Bool} {cx cx' : Context H} {outcome : Outcome H}
    (h : cx.visit? poll sequence nested position entry parallel = some (outcome, cx')) :
    Returns (.visit sequence nested position entry parallel cx outcome cx') := by
  rw [Context.visit?] at h
  rcases hinvoke : cx.invoke sequence nested position entry parallel with ⟨_ | task, cx₁⟩
  · simp only [hinvoke] at h
    cases h
    exact .visitFinished hinvoke
  · simp only [hinvoke] at h
    rcases hp : poll task cx₁ with _ | ⟨_ | _, task', cx₂⟩
    · simp [hp] at h
    · simp only [hp] at h
      cases h
      exact .visitPending hinvoke (hpoll hp)
    · simp only [hp] at h
      cases h
      exact .visitDone hinvoke (hpoll hp)

theorem of_startFrom (hpoll : Sound poll) {sequence : Sequence H} {nested : NestedId}
    {range : List (SequenceEntry H × Nat)} {next : Nat} {join join' : Join (Task H)}
    {cx cx' : Context H}
    (h : Join.startFrom poll sequence nested range next join cx = some (join', cx')) :
    Returns (.fork sequence nested range next join cx join' cx') := by
  induction range generalizing next join cx with
  | nil =>
      cases h
      exact .forkEnd
  | cons node rest ih =>
      obtain ⟨entry, position⟩ := node
      rw [Join.startFrom_cons] at h
      by_cases hpast : position < next
      · rw [if_pos hpast] at h
        exact .forkPast hpast (ih h)
      have hle : next ≤ position := Nat.le_of_not_lt hpast
      rw [if_neg hpast] at h
      by_cases hstop : cx.stopRequested = true
      · rw [if_pos hstop] at h
        cases h
        exact .forkStopped hle hstop
      rw [if_neg hstop] at h
      rcases hv : (cx.moveTo position).visit? poll sequence nested position entry true
        with _ | ⟨outcome, cx₁⟩
      · simp [hv] at h
      · simp only [hv] at h
        exact .forkNext hle (Bool.eq_false_iff.mpr hstop) (of_visit hpoll hv) (ih h)

theorem of_pollBranches (hpoll : Sound poll) {tasks pending : List (Task H)} {finished : Nat}
    {cx cx' : Context H}
    (h : Join.pollBranches poll tasks cx = some (pending, finished, cx')) :
    Returns (.branches tasks cx pending finished cx') := by
  induction tasks generalizing pending finished cx with
  | nil =>
      cases h
      exact .branchesEnd
  | cons task rest ih =>
      rw [Join.pollBranches] at h
      rcases hp : poll task cx with _ | ⟨_ | _, task', cx₁⟩
      · simp [hp] at h
      · simp only [hp, Progress.isDone, Bool.false_eq_true, ↓reduceIte] at h
        cases hrest : Join.pollBranches poll rest cx₁ with
        | none => simp [hrest] at h
        | some result =>
            simp only [hrest] at h
            cases h
            exact .branchesPending (hpoll hp) (ih hrest)
      · simp only [hp, Progress.isDone, ↓reduceIte] at h
        cases hrest : Join.pollBranches poll rest (cx₁.release task') with
        | none => simp [hrest] at h
        | some result =>
            simp only [hrest] at h
            cases h
            exact .branchesDone (hpoll hp) (ih hrest)

theorem of_joinAdvance (hpoll : Sound poll) {sequence : Sequence H} {nested : NestedId}
    {first stop : Nat} {join : Option (Join (Task H))} {join' : Join (Task H)}
    {cx cx' : Context H}
    (h : Join.advance poll sequence nested first stop join cx = some (join', cx')) :
    Returns (.join sequence nested first stop join cx join' cx') := by
  cases join with
  | none => exact .joinStarted (of_startFrom hpoll h)
  | some join =>
      rw [Join.advance, Join.poll] at h
      cases hb : Join.pollBranches poll join.branches cx with
      | none => simp [hb] at h
      | some result =>
          simp only [hb] at h
          cases h
          exact .joinPolled (of_pollBranches hpoll hb)

theorem of_walk (hpoll : Sound poll) {sequence : Sequence H} {nested : NestedId} {fuel : Nat}
    {cx cx' : Context H} {progress : Progress} {current : Option (Task H)}
    (h : Run.walk poll sequence nested fuel cx = some (progress, current, cx')) :
    Returns (.walk sequence nested cx progress current cx') := by
  induction fuel generalizing cx with
  | zero => simp [Run.walk] at h
  | succ fuel ih =>
      rw [Run.walk_succ] at h
      by_cases hstop : cx.stopRequested = true
      · rw [if_pos hstop] at h
        cases h
        exact .walkStopped hstop
      rw [if_neg hstop] at h
      have hgo := Bool.eq_false_iff.mpr hstop
      rcases hnode : cx.nextNode? sequence with _ | ⟨position, entry⟩
      · simp only [hnode] at h
        cases h
        exact .walkEnd hgo hnode
      · simp only [hnode] at h
        rcases hv : cx.visit? poll sequence nested position entry false
          with _ | ⟨_ | task, cx₁⟩
        · simp [hv] at h
        · simp only [hv] at h
          exact .walkNext hgo hnode (of_visit hpoll hv) (ih h)
        · simp only [hv] at h
          cases h
          exact .walkPending hgo hnode (of_visit hpoll hv)

theorem of_resume (hpoll : Sound poll) {fuel : Nat} {sequence : Sequence H} {nested : NestedId}
    {current current' : Option (Task H)} {cx cx' : Context H} {progress : Progress}
    (h : Run.resume poll fuel sequence nested current cx = some (progress, current', cx')) :
    Returns (.resume sequence nested current cx progress current' cx') := by
  cases current with
  | none => exact .resumeWalk (of_walk hpoll h)
  | some task =>
      rw [Run.resume] at h
      cases hp : poll task cx with
      | none => simp [hp] at h
      | some answer =>
          obtain ⟨_ | _, task', cx₁⟩ := answer
          · simp only [hp] at h
            cases h
            exact .resumePending (hpoll hp)
          · simp only [hp] at h
            exact .resumeDone (hpoll hp) (of_walk hpoll h)

theorem of_runStep (hpoll : Sound poll) {fuel : Nat} {run run' : SequenceRun H}
    {playback playback' : Playback H} {progress : Progress}
    (h : run.step poll fuel playback = some (progress, run', playback')) :
    Returns (.step run playback progress run' playback') := by
  obtain ⟨sequence, nested, cursor, mode⟩ := run
  cases mode with
  | sequential current =>
      simp only [Run.step] at h
      cases hres : Run.resume poll fuel sequence nested current ⟨cursor, playback⟩ with
      | none => simp [hres] at h
      | some result =>
          simp only [hres] at h
          cases h
          exact .stepSequential (of_resume hpoll hres)
  | parallel join =>
      simp only [Run.step] at h
      cases hres : Join.advance poll sequence nested 0 sequence.length join ⟨cursor, playback⟩ with
      | none => simp [hres] at h
      | some result =>
          have hrun := stepParallel (of_joinAdvance hpoll hres)
          rw [← Context.moveToIf_playback result.2 result.1.isDone sequence.length] at hrun
          simp only [hres] at h
          cases h
          exact hrun

theorem of_passesPoll (hpoll : Sound poll) {fuel ticket left : Nat}
    {p p' : Passes H (Task H)} {playback playback' : Playback H} {progress : Progress}
    (h : Passes.poll poll fuel ticket left p playback = some (progress, p', playback')) :
    Returns (.passes ticket p playback progress p' playback') := by
  induction left generalizing p playback with
  | zero => simp [Passes.poll] at h
  | succ left ih =>
      rcases hcurrent : p.current ticket playback with ⟨run, suspended, playback₁⟩
      rw [Passes.poll_succ, hcurrent] at h
      rcases hstep : run.step poll fuel playback₁ with _ | ⟨_ | _, run', playback₂⟩
      · simp [hstep] at h
      · simp only [hstep] at h
        cases h
        exact .passesPending hcurrent (of_runStep hpoll hstep)
      · have hrun := of_runStep hpoll hstep
        cases hcont : Passes.continuation p.loops (p.completePass suspended).completed
          suspended with
        | finish =>
            simp only [hstep, hcont] at h
            cases h
            exact .passesFinished hcurrent hrun hcont
        | yield =>
            simp only [hstep, hcont] at h
            cases h
            exact .passesYield hcurrent hrun hcont
        | again =>
            simp only [hstep, hcont] at h
            exact .passesAgain hcurrent hrun hcont (ih h)

theorem of_advance (hpoll : Sound poll) {fuel ticket : Nat} {work work' : Work H (Task H)}
    {cx cx' : Context H} {progress : Progress}
    (h : Task.advance poll fuel ticket work cx = some (progress, work', cx')) :
    Returns (.work ticket work cx progress work' cx') := by
  cases work with
  | untilTime deadline => cases h; exact .untilTime
  | untilFrame frame => cases h; exact .untilFrame
  | untilParameter name expected => cases h; exact .untilParameter
  | hosted w => cases h; exact .hosted rfl
  | block b =>
      rw [Task.advance, Block.poll] at h
      cases hres : Join.advance poll b.sequence b.nested b.first b.stop b.join cx with
      | none => simp [hres] at h
      | some result =>
          simp only [hres] at h
          cases h
          exact .block (of_joinAdvance hpoll hres)
  | passes p =>
      rw [Task.advance] at h
      cases hres : p.poll poll fuel ticket fuel cx.playback with
      | none => simp [hres] at h
      | some result =>
          simp only [hres] at h
          cases h
          exact .nested (of_passesPoll hpoll hres)

theorem of_pollWith (hpoll : Sound poll) (fuel : Nat) : Sound (Task.pollWith poll fuel) := by
  intro task cx progress task' cx' h
  rw [Task.pollWith] at h
  cases hres : Task.advance poll fuel task.ticket task.work (cx.record (.polled task.ticket)) with
  | none => simp [hres] at h
  | some result =>
      obtain ⟨_ | _, work, cx₁⟩ := result
      · simp only [hres] at h
        cases h
        exact .pollPending (of_advance hpoll hres)
      · simp only [hres] at h
        cases h
        exact .pollDone (of_advance hpoll hres)

/-- **Soundness.** Whatever a poll within a bound answers, the relation has. -/
theorem of_poll (fuel : Nat) : Sound (Task.poll (H := H) fuel) := by
  induction fuel with
  | zero => intro task cx progress task' cx' h; simp [Task.poll] at h
  | succ fuel ih => exact of_pollWith ih fuel

/-- Whatever a step of a run within a bound answers, the relation has. -/
theorem of_step {fuel : Nat} {run run' : SequenceRun H} {playback playback' : Playback H}
    {progress : Progress}
    (h : run.step (Task.poll fuel) fuel playback = some (progress, run', playback')) :
    Returns (.step run playback progress run' playback') :=
  of_runStep (of_poll fuel) h

end Job.Returns

/-! ### What the relation has, the bounded functions answer -/

/-- The bounded functions return what the job names, for every bound from the given one on. -/
def Job.Computes (bound : Nat) : Job H → Prop
  | .poll task cx progress task' cx' =>
    ∀ fuel, bound ≤ fuel → Task.poll fuel task cx = some (progress, task', cx')
  | .work ticket w cx progress w' cx' =>
    ∀ fuel, bound ≤ fuel →
      Task.advance (Task.poll fuel) fuel ticket w cx = some (progress, w', cx')
  | .join sequence nested first stop j cx j' cx' =>
    ∀ fuel, bound ≤ fuel →
      Join.advance (Task.poll fuel) sequence nested first stop j cx = some (j', cx')
  | .fork sequence nested range next j cx j' cx' =>
    ∀ fuel, bound ≤ fuel →
      Join.startFrom (Task.poll fuel) sequence nested range next j cx = some (j', cx')
  | .visit sequence nested position entry parallel cx outcome cx' =>
    ∀ fuel, bound ≤ fuel →
      cx.visit? (Task.poll fuel) sequence nested position entry parallel = some (outcome, cx')
  | .branches tasks cx pending finished cx' =>
    ∀ fuel, bound ≤ fuel →
      Join.pollBranches (Task.poll fuel) tasks cx = some (pending, finished, cx')
  | .walk sequence nested cx progress current cx' =>
    ∀ fuel, bound ≤ fuel → ∀ length, bound ≤ length →
      Run.walk (Task.poll fuel) sequence nested length cx = some (progress, current, cx')
  | .resume sequence nested current cx progress current' cx' =>
    ∀ fuel, bound ≤ fuel → ∀ length, bound ≤ length →
      Run.resume (Task.poll fuel) length sequence nested current cx = some (progress, current', cx')
  | .step run playback progress run' playback' =>
    ∀ fuel, bound ≤ fuel →
      run.step (Task.poll fuel) fuel playback = some (progress, run', playback')
  | .passes ticket p playback progress p' playback' =>
    ∀ fuel, bound ≤ fuel → ∀ left, bound ≤ left →
      Passes.poll (Task.poll fuel) fuel ticket left p playback = some (progress, p', playback')

namespace Job.Computes

/-! One lemma for each rule by which a bound is passed on or counted down. -/

variable {sequence : Sequence H} {nested : NestedId} {i j : Job H} {bound bound' : Nat}

/-- A larger bound changes no answer. -/
theorem mono (h : j.Computes bound) (hle : bound ≤ bound') : j.Computes bound' := by
  cases j with
  | walk | resume | passes => exact fun fuel hf length hl => h fuel (by omega) length (by omega)
  | _ => exact fun fuel hf => h fuel (by omega)

/-- Two jobs are answered within the larger one of their bounds. -/
theorem exists_both (hi : ∃ bound, i.Computes bound) (hj : ∃ bound, j.Computes bound) :
    ∃ bound, i.Computes bound ∧ j.Computes bound := by
  obtain ⟨b₁, h₁⟩ := hi
  obtain ⟨b₂, h₂⟩ := hj
  exact ⟨max b₁ b₂, h₁.mono (Nat.le_max_left _ _), h₂.mono (Nat.le_max_right _ _)⟩

theorem poll {task : Task H} {cx cx₁ : Context H} {progress : Progress} {work : Work H (Task H)}
    (h : (Job.work task.ticket task.work (cx.record (.polled task.ticket)) progress work
      cx₁).Computes bound) :
    (Job.poll task cx progress ⟨task.ticket, progress.isDone, work⟩
      (if progress.isDone then cx₁.record (.completed task.ticket) else cx₁)).Computes
        (bound + 1) := by
  intro fuel hf
  obtain ⟨fuel, rfl⟩ : ∃ n, fuel = n + 1 := ⟨fuel - 1, by omega⟩
  rw [Task.poll, Task.pollWith, h fuel (by omega)]
  cases progress <;> rfl

theorem block {ticket : Nat} {b : Block H (Task H)} {cx cx' : Context H} {join : Join (Task H)}
    (h : (Job.join b.sequence b.nested b.first b.stop b.join cx join cx').Computes bound) :
    (Job.work ticket (.block b) cx (.doneIf join.isDone) (.block { b with join := some join })
      (cx'.moveToIf join.isDone (b.stop - 1))).Computes bound := by
  intro fuel hf
  rw [Task.advance, Block.poll, h fuel hf]
  rfl

theorem passes {ticket : Nat} {p p' : Passes H (Task H)} {cx : Context H} {progress : Progress}
    {playback : Playback H}
    (h : (Job.passes ticket p cx.playback progress p' playback).Computes bound) :
    (Job.work ticket (.passes p) cx progress (.passes p') { cx with playback }).Computes
      bound := by
  intro fuel hf
  rw [Task.advance, h fuel hf fuel hf]

theorem joinPolled {first stop finished : Nat} {join : Join (Task H)} {cx cx' : Context H}
    {pending : List (Task H)}
    (h : (Job.branches join.branches cx pending finished cx').Computes bound) :
    (Job.join sequence nested first stop (some join) cx (join.update pending finished)
      (cx'.record (.joinPolled (join.completed + finished) join.started))).Computes bound := by
  intro fuel hf
  rw [Join.advance, Join.poll, h fuel hf]
  rfl

theorem forkPast {entry : SequenceEntry H} {position next : Nat}
    {rest : List (SequenceEntry H × Nat)} {join join' : Join (Task H)} {cx cx' : Context H}
    (hpast : position < next)
    (h : (Job.fork sequence nested rest next join cx join' cx').Computes bound) :
    (Job.fork sequence nested ((entry, position) :: rest) next join cx join' cx').Computes
      bound := by
  intro fuel hf
  rw [Join.startFrom_cons, if_pos hpast, h fuel hf]

theorem forkNext {entry : SequenceEntry H} {position next : Nat}
    {rest : List (SequenceEntry H × Nat)} {join join' : Join (Task H)} {outcome : Outcome H}
    {cx cx₁ cx' : Context H} (hle : next ≤ position) (hgo : cx.stopRequested = false)
    (hv : (Job.visit sequence nested position entry true (cx.moveTo position) outcome
      cx₁).Computes bound)
    (hrest : (Job.fork sequence nested rest (cx₁.nextBranch position) (join.count outcome) cx₁
      join' cx').Computes bound) :
    (Job.fork sequence nested ((entry, position) :: rest) next join cx join' cx').Computes
      bound := by
  intro fuel hf
  rw [Join.startFrom_cons, if_neg (Nat.not_lt_of_le hle), if_neg (by simp [hgo]), hv fuel hf]
  exact hrest fuel hf

theorem visitDone {entry : SequenceEntry H} {position : Nat} {parallel : Bool}
    {task task' : Task H} {cx cx₁ cx₂ : Context H}
    (hinvoke : cx.invoke sequence nested position entry parallel = (some task, cx₁))
    (h : (Job.poll task cx₁ .done task' cx₂).Computes bound) :
    (Job.visit sequence nested position entry parallel cx .done (cx₂.release task')).Computes
      bound := by
  intro fuel hf
  simp only [Context.visit?, hinvoke, h fuel hf]

theorem visitPending {entry : SequenceEntry H} {position : Nat} {parallel : Bool}
    {task task' : Task H} {cx cx₁ cx₂ : Context H}
    (hinvoke : cx.invoke sequence nested position entry parallel = (some task, cx₁))
    (h : (Job.poll task cx₁ .pending task' cx₂).Computes bound) :
    (Job.visit sequence nested position entry parallel cx (.pending task') cx₂).Computes
      bound := by
  intro fuel hf
  simp only [Context.visit?, hinvoke, h fuel hf]

theorem branchesDone {task task' : Task H} {rest pending : List (Task H)} {finished : Nat}
    {cx cx₁ cx' : Context H} (hp : (Job.poll task cx .done task' cx₁).Computes bound)
    (hrest : (Job.branches rest (cx₁.release task') pending finished cx').Computes bound) :
    (Job.branches (task :: rest) cx pending (finished + 1) cx').Computes bound := by
  intro fuel hf
  simp only [Join.pollBranches, hp fuel hf, Progress.isDone, ↓reduceIte, hrest fuel hf]

theorem branchesPending {task task' : Task H} {rest pending : List (Task H)} {finished : Nat}
    {cx cx₁ cx' : Context H} (hp : (Job.poll task cx .pending task' cx₁).Computes bound)
    (hrest : (Job.branches rest cx₁ pending finished cx').Computes bound) :
    (Job.branches (task :: rest) cx (task' :: pending) finished cx').Computes bound := by
  intro fuel hf
  simp only [Join.pollBranches, hp fuel hf, Progress.isDone, Bool.false_eq_true, ↓reduceIte,
    hrest fuel hf]

theorem walkStopped {cx : Context H} (hstop : cx.stopRequested = true) :
    (Job.walk sequence nested cx .pending none cx).Computes 1 := by
  intro fuel _ length hl
  obtain ⟨length, rfl⟩ : ∃ n, length = n + 1 := ⟨length - 1, by omega⟩
  rw [Run.walk_succ, if_pos hstop]

theorem walkEnd {cx : Context H} (hgo : cx.stopRequested = false)
    (hnode : cx.nextNode? sequence = none) :
    (Job.walk sequence nested cx .done none cx).Computes 1 := by
  intro fuel _ length hl
  obtain ⟨length, rfl⟩ : ∃ n, length = n + 1 := ⟨length - 1, by omega⟩
  rw [Run.walk_succ, if_neg (by simp [hgo]), hnode]

theorem walkNext {entry : SequenceEntry H} {position : Nat} {progress : Progress}
    {current : Option (Task H)} {cx cx₁ cx' : Context H} (hgo : cx.stopRequested = false)
    (hnode : cx.nextNode? sequence = some (position, entry))
    (hv : (Job.visit sequence nested position entry false cx .done cx₁).Computes bound)
    (hw : (Job.walk sequence nested (cx₁.advance 1) progress current cx').Computes bound) :
    (Job.walk sequence nested cx progress current cx').Computes (bound + 1) := by
  intro fuel hf length hl
  obtain ⟨length, rfl⟩ : ∃ n, length = n + 1 := ⟨length - 1, by omega⟩
  simp only [Run.walk_succ, hgo, Bool.false_eq_true, ↓reduceIte, hnode, hv fuel (by omega)]
  exact hw fuel (by omega) length (by omega)

theorem walkPending {entry : SequenceEntry H} {position : Nat} {task : Task H}
    {cx cx₁ : Context H} (hgo : cx.stopRequested = false)
    (hnode : cx.nextNode? sequence = some (position, entry))
    (hv : (Job.visit sequence nested position entry false cx (.pending task) cx₁).Computes
      bound) :
    (Job.walk sequence nested cx .pending (some task) cx₁).Computes (bound + 1) := by
  intro fuel hf length hl
  obtain ⟨length, rfl⟩ : ∃ n, length = n + 1 := ⟨length - 1, by omega⟩
  simp only [Run.walk_succ, hgo, Bool.false_eq_true, ↓reduceIte, hnode, hv fuel (by omega)]

theorem resumeDone {task task' : Task H} {progress : Progress} {current : Option (Task H)}
    {cx cx₁ cx' : Context H} (hp : (Job.poll task cx .done task' cx₁).Computes bound)
    (hw : (Job.walk sequence nested ((cx₁.release task').advance 1) progress current
      cx').Computes bound) :
    (Job.resume sequence nested (some task) cx progress current cx').Computes bound := by
  intro fuel hf length hl
  simp only [Run.resume, hp fuel hf]
  exact hw fuel hf length hl

theorem resumePending {task task' : Task H} {cx cx₁ : Context H}
    (hp : (Job.poll task cx .pending task' cx₁).Computes bound) :
    (Job.resume sequence nested (some task) cx .pending (some task') cx₁).Computes bound := by
  intro fuel hf length _
  simp only [Run.resume, hp fuel hf]

theorem stepSequential {cursor : Cursor} {playback : Playback H} {progress : Progress}
    {current current' : Option (Task H)} {cx : Context H}
    (h : (Job.resume sequence nested current ⟨cursor, playback⟩ progress current' cx).Computes
      bound) :
    (Job.step ⟨sequence, nested, cursor, .sequential current⟩ playback progress
      ⟨sequence, nested, cx.cursor, .sequential current'⟩ cx.playback).Computes bound := by
  intro fuel hf
  simp only [Run.step, h fuel hf fuel hf]

theorem stepParallel {cursor : Cursor} {playback : Playback H} {join : Option (Join (Task H))}
    {join' : Join (Task H)} {cx : Context H}
    (h : (Job.join sequence nested 0 sequence.length join ⟨cursor, playback⟩ join' cx).Computes
      bound) :
    (Job.step ⟨sequence, nested, cursor, .parallel join⟩ playback (.doneIf join'.isDone)
      ⟨sequence, nested, (cx.moveToIf join'.isDone sequence.length).cursor,
        .parallel (some join')⟩ cx.playback).Computes bound := by
  intro fuel hf
  rw [← Context.moveToIf_playback cx join'.isDone sequence.length]
  simp only [Run.step, h fuel hf]
  rfl

section Passes

variable {ticket : Nat} {p p' : Passes H (Task H)} {run run' : SequenceRun H} {suspended : Bool}
  {progress : Progress} {playback playback₁ playback₂ playback' : Playback H}

theorem passesPending (hcurrent : p.current ticket playback = (run, suspended, playback₁))
    (hs : (Job.step run playback₁ .pending run' playback').Computes bound) :
    (Job.passes ticket p playback .pending { p with run := some run', suspended := true }
      playback').Computes (bound + 1) := by
  intro fuel hf left hl
  obtain ⟨left, rfl⟩ : ∃ n, left = n + 1 := ⟨left - 1, by omega⟩
  simp only [Passes.poll_succ, hcurrent, hs fuel (by omega)]

/-- No pass follows in this poll, for either reason. -/
theorem passesEnd (hcurrent : p.current ticket playback = (run, suspended, playback₁))
    (hs : (Job.step run playback₁ .done run' playback₂).Computes bound)
    (hagain : Passes.continuation p.loops (p.completePass suspended).completed suspended
      ≠ .again) :
    (Job.passes ticket p playback
      (.doneIf (Passes.continuation p.loops (p.completePass suspended).completed suspended
        == .finish))
      (p.completePass suspended) (p.closePass ticket run' playback₂)).Computes (bound + 1) := by
  intro fuel hf left hl
  obtain ⟨left, rfl⟩ : ∃ n, left = n + 1 := ⟨left - 1, by omega⟩
  simp only [Passes.poll_succ, hcurrent, hs fuel (by omega)]
  cases hcont : Passes.continuation p.loops (p.completePass suspended).completed suspended with
  | finish => rfl
  | yield => rfl
  | again => exact absurd hcont hagain

theorem passesAgain (hcurrent : p.current ticket playback = (run, suspended, playback₁))
    (hs : (Job.step run playback₁ .done run' playback₂).Computes bound)
    (hcont : Passes.continuation p.loops (p.completePass suspended).completed suspended = .again)
    (hp : (Job.passes ticket (p.completePass suspended) (p.closePass ticket run' playback₂)
      progress p' playback').Computes bound) :
    (Job.passes ticket p playback progress p' playback').Computes (bound + 1) := by
  intro fuel hf left hl
  obtain ⟨left, rfl⟩ : ∃ n, left = n + 1 := ⟨left - 1, by omega⟩
  simp only [Passes.poll_succ, hcurrent, hs fuel (by omega), hcont]
  exact hp fuel (by omega) left (by omega)

end Passes

end Job.Computes

namespace Job.Returns

open Job.Computes (exists_both)

/-- **Completeness.** What the relation has, the bounded functions answer from some bound on. -/
theorem computes {j : Job H} (h : j.Returns) : ∃ bound, j.Computes bound := by
  induction h with
  -- polls, which need one level more than the work
  | pollPending _ ih | pollDone _ ih =>
      obtain ⟨bound, hb⟩ := ih
      exact ⟨bound + 1, hb.poll⟩
  -- work
  | untilTime | untilFrame | untilParameter => exact ⟨0, fun _ _ => rfl⟩
  | hosted hpoll => exact ⟨0, fun _ _ => by rw [Task.advance, hpoll]⟩
  | block _ ih => exact ih.imp fun _ => .block
  | nested _ ih => exact ih.imp fun _ => .passes
  -- joins, their forks and their branches
  | joinPolled _ ih => exact ih.imp fun _ => .joinPolled
  | joinStarted _ ih => exact ih
  | forkEnd => exact ⟨0, fun _ _ => rfl⟩
  | forkPast hpast _ ih => exact ih.imp fun _ => .forkPast hpast
  | forkStopped hle hstop =>
      refine ⟨0, fun fuel _ => ?_⟩
      rw [Join.startFrom_cons, if_neg (Nat.not_lt_of_le hle), if_pos hstop]
  | forkNext hle hgo _ _ ihv ihf =>
      obtain ⟨bound, hv, hf⟩ := exists_both ihv ihf
      exact ⟨bound, .forkNext hle hgo hv hf⟩
  | visitFinished hinvoke => exact ⟨0, fun _ _ => by rw [Context.visit?, hinvoke]⟩
  | visitDone hinvoke _ ih => exact ih.imp fun _ => .visitDone hinvoke
  | visitPending hinvoke _ ih => exact ih.imp fun _ => .visitPending hinvoke
  | branchesEnd => exact ⟨0, fun _ _ => rfl⟩
  | branchesDone _ _ ihp ihb =>
      obtain ⟨bound, hp, hb⟩ := exists_both ihp ihb
      exact ⟨bound, .branchesDone hp hb⟩
  | branchesPending _ _ ihp ihb =>
      obtain ⟨bound, hp, hb⟩ := exists_both ihp ihb
      exact ⟨bound, .branchesPending hp hb⟩
  -- sequential runs, which need a bound on the walk besides
  | walkStopped hstop => exact ⟨1, .walkStopped hstop⟩
  | walkEnd hgo hnode => exact ⟨1, .walkEnd hgo hnode⟩
  | walkNext hgo hnode _ _ ihv ihw =>
      obtain ⟨bound, hv, hw⟩ := exists_both ihv ihw
      exact ⟨bound + 1, .walkNext hgo hnode hv hw⟩
  | walkPending hgo hnode _ ihv =>
      obtain ⟨bound, hv⟩ := ihv
      exact ⟨bound + 1, .walkPending hgo hnode hv⟩
  | resumeWalk _ ih => exact ih
  | resumeDone _ _ ihp ihw =>
      obtain ⟨bound, hp, hw⟩ := exists_both ihp ihw
      exact ⟨bound, .resumeDone hp hw⟩
  | resumePending _ ih => exact ih.imp fun _ => .resumePending
  -- steps
  | stepSequential _ ih => exact ih.imp fun _ => .stepSequential
  | stepParallel _ ih => exact ih.imp fun _ => .stepParallel
  -- passes, which need a bound on their number besides
  | passesPending hcurrent _ ih =>
      obtain ⟨bound, hb⟩ := ih
      exact ⟨bound + 1, .passesPending hcurrent hb⟩
  | passesFinished hcurrent _ hcont ih | passesYield hcurrent _ hcont ih =>
      obtain ⟨bound, hb⟩ := ih
      have hend := Job.Computes.passesEnd hcurrent hb (by simp [hcont])
      rw [hcont] at hend
      exact ⟨bound + 1, hend⟩
  | passesAgain hcurrent _ hcont _ ihs ihp =>
      obtain ⟨bound, hs, hp⟩ := exists_both ihs ihp
      exact ⟨bound + 1, .passesAgain hcurrent hs hcont hp⟩

/-- A step has one result. -/
theorem step_unique {run run₁ run₂ : SequenceRun H} {pb pb₁ pb₂ : Playback H}
    {progress₁ progress₂ : Progress} (h₁ : (Job.step run pb progress₁ run₁ pb₁).Returns)
    (h₂ : (Job.step run pb progress₂ run₂ pb₂).Returns) :
    progress₁ = progress₂ ∧ run₁ = run₂ ∧ pb₁ = pb₂ := by
  obtain ⟨bound₁, hbound₁⟩ := h₁.computes
  obtain ⟨bound₂, hbound₂⟩ := h₂.computes
  have heq := (hbound₁ (max bound₁ bound₂) (Nat.le_max_left _ _)).symm.trans
    (hbound₂ (max bound₁ bound₂) (Nat.le_max_right _ _))
  simpa using heq

end Job.Returns

end Sequencer
