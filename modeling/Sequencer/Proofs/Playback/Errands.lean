import Sequencer.Proofs.Playback.History

/-!
# Sequencer.Proofs.Playback.Errands

What goes on within a step that may not come to an end.

An errand is the first half of a job: what the scheduler is asked to do, without what comes of it.
`Errand.Calls a b` says that the scheduler, while it is at `a`, comes to `b`; whatever it does in
between has come to an end. An errand all of whose calls come to an end does so itself
(`Errand.ends_of_calls`), so no way on is missing here. `Job.Returns.covers` says that what the
history of a job tells of are the nodes that the scheduler came to.
-/

namespace Sequencer

open Relation

variable {H : Host}

/-- Something the scheduler is asked to do. -/
inductive Errand (H : Host)
  | poll (task : Task H) (cx : Context H)
  | work (ticket : Nat) (work : Work H (Task H)) (cx : Context H)
  | join (s : Sequence H) (nested : NestedId) (first stop : Nat) (join : Option (Join (Task H)))
      (cx : Context H)
  | fork (s : Sequence H) (nested : NestedId) (range : List (SequenceEntry H × Nat)) (next : Nat)
      (join : Join (Task H)) (cx : Context H)
  | visit (s : Sequence H) (nested : NestedId) (position : Nat) (entry : SequenceEntry H)
      (parallel : Bool) (cx : Context H)
  | branches (tasks : List (Task H)) (cx : Context H)
  | walk (s : Sequence H) (nested : NestedId) (cx : Context H)
  | resume (s : Sequence H) (nested : NestedId) (current : Option (Task H)) (cx : Context H)
  | step (run : SequenceRun H) (playback : Playback H)
  | passes (ticket : Nat) (passes : Passes H (Task H)) (playback : Playback H)

/-- The errand that a job carries out. -/
def Job.errand : Job H → Errand H
  | .poll task cx .. => .poll task cx
  | .work ticket w cx .. => .work ticket w cx
  | .join s nested first stop j cx .. => .join s nested first stop j cx
  | .fork s nested range next j cx .. => .fork s nested range next j cx
  | .visit s nested position entry parallel cx .. => .visit s nested position entry parallel cx
  | .branches tasks cx .. => .branches tasks cx
  | .walk s nested cx .. => .walk s nested cx
  | .resume s nested current cx .. => .resume s nested current cx
  | .step run playback .. => .step run playback
  | .passes ticket p playback .. => .passes ticket p playback

namespace Errand

/-- The playback when the errand begins. -/
def playback : Errand H → Playback H
  | .poll _ cx | .work _ _ cx | .join _ _ _ _ _ cx | .fork _ _ _ _ _ cx | .visit _ _ _ _ _ cx
  | .branches _ cx | .walk _ _ cx | .resume _ _ _ cx => cx.playback
  | .step _ playback | .passes _ _ playback => playback

/-- The errand comes to an end. -/
def Ends (a : Errand H) : Prop := ∃ j : Job H, j.errand = a ∧ j.Returns

/-- While it is at one errand, the scheduler comes to another. -/
inductive Calls : Errand H → Errand H → Prop
  | work {task : Task H} {cx : Context H} :
      Calls (.poll task cx) (.work task.ticket task.work (cx.record (.polled task.ticket)))
  | block {ticket : Nat} {b : Block H (Task H)} {cx : Context H} :
      Calls (.work ticket (.block b) cx) (.join b.sequence b.nested b.first b.stop b.join cx)
  | nested {ticket : Nat} {p : Passes H (Task H)} {cx : Context H} :
      Calls (.work ticket (.passes p) cx) (.passes ticket p cx.playback)
  | branches {s : Sequence H} {nested : NestedId} {first stop : Nat} {join : Join (Task H)}
      {cx : Context H} :
      Calls (.join s nested first stop (some join) cx) (.branches join.branches cx)
  | fork {s : Sequence H} {nested : NestedId} {first stop : Nat} {cx : Context H} :
      Calls (.join s nested first stop none cx)
        (.fork s nested ((s.nodes.zipIdx.drop first).take (stop - first)) first {} cx)
  | forkPast {s : Sequence H} {nested : NestedId} {entry : SequenceEntry H} {position next : Nat}
      {rest : List (SequenceEntry H × Nat)} {join : Join (Task H)} {cx : Context H} :
      position < next →
      Calls (.fork s nested ((entry, position) :: rest) next join cx)
        (.fork s nested rest next join cx)
  | forkVisit {s : Sequence H} {nested : NestedId} {entry : SequenceEntry H} {position next : Nat}
      {rest : List (SequenceEntry H × Nat)} {join : Join (Task H)} {cx : Context H} :
      next ≤ position → cx.stopRequested = false →
      Calls (.fork s nested ((entry, position) :: rest) next join cx)
        (.visit s nested position entry true (cx.moveTo position))
  | forkNext {s : Sequence H} {nested : NestedId} {entry : SequenceEntry H} {position next : Nat}
      {rest : List (SequenceEntry H × Nat)} {join : Join (Task H)} {outcome : Outcome H}
      {cx cx₁ : Context H} :
      next ≤ position → cx.stopRequested = false →
      (Job.visit s nested position entry true (cx.moveTo position) outcome cx₁).Returns →
      Calls (.fork s nested ((entry, position) :: rest) next join cx)
        (.fork s nested rest (cx₁.nextBranch position) (join.count outcome) cx₁)
  | firstPoll {s : Sequence H} {nested : NestedId} {position : Nat} {entry : SequenceEntry H}
      {parallel : Bool} {task : Task H} {cx cx₁ : Context H} :
      cx.invoke s nested position entry parallel = (some task, cx₁) →
      Calls (.visit s nested position entry parallel cx) (.poll task cx₁)
  | branchPoll {task : Task H} {rest : List (Task H)} {cx : Context H} :
      Calls (.branches (task :: rest) cx) (.poll task cx)
  | branchesDone {task task' : Task H} {rest : List (Task H)} {cx cx₁ : Context H} :
      (Job.poll task cx .done task' cx₁).Returns →
      Calls (.branches (task :: rest) cx) (.branches rest (cx₁.release task'))
  | branchesPending {task task' : Task H} {rest : List (Task H)} {cx cx₁ : Context H} :
      (Job.poll task cx .pending task' cx₁).Returns →
      Calls (.branches (task :: rest) cx) (.branches rest cx₁)
  | walkVisit {s : Sequence H} {nested : NestedId} {entry : SequenceEntry H} {position : Nat}
      {cx : Context H} :
      cx.stopRequested = false → cx.nextNode? s = some (position, entry) →
      Calls (.walk s nested cx) (.visit s nested position entry false cx)
  | walkNext {s : Sequence H} {nested : NestedId} {entry : SequenceEntry H} {position : Nat}
      {cx cx₁ : Context H} :
      cx.stopRequested = false → cx.nextNode? s = some (position, entry) →
      (Job.visit s nested position entry false cx .done cx₁).Returns →
      Calls (.walk s nested cx) (.walk s nested (cx₁.advance 1))
  | resumeWalk {s : Sequence H} {nested : NestedId} {cx : Context H} :
      Calls (.resume s nested none cx) (.walk s nested cx)
  | resumePoll {s : Sequence H} {nested : NestedId} {task : Task H} {cx : Context H} :
      Calls (.resume s nested (some task) cx) (.poll task cx)
  | resumeNext {s : Sequence H} {nested : NestedId} {task task' : Task H} {cx cx₁ : Context H} :
      (Job.poll task cx .done task' cx₁).Returns →
      Calls (.resume s nested (some task) cx) (.walk s nested ((cx₁.release task').advance 1))
  | sequential {s : Sequence H} {nested : NestedId} {cursor : Cursor} {current : Option (Task H)}
      {playback : Playback H} :
      Calls (.step ⟨s, nested, cursor, .sequential current⟩ playback)
        (.resume s nested current ⟨cursor, playback⟩)
  | parallel {s : Sequence H} {nested : NestedId} {cursor : Cursor} {join : Option (Join (Task H))}
      {playback : Playback H} :
      Calls (.step ⟨s, nested, cursor, .parallel join⟩ playback)
        (.join s nested 0 s.length join ⟨cursor, playback⟩)
  | pass {ticket : Nat} {p : Passes H (Task H)} {playback playback₁ : Playback H}
      {run : SequenceRun H} {suspended : Bool} :
      p.current ticket playback = (run, suspended, playback₁) →
      Calls (.passes ticket p playback) (.step run playback₁)
  | nextPass {ticket : Nat} {p : Passes H (Task H)} {playback playback₁ playback₂ : Playback H}
      {run run' : SequenceRun H} {suspended : Bool} :
      p.current ticket playback = (run, suspended, playback₁) →
      (Job.step run playback₁ .done run' playback₂).Returns →
      Passes.continuation p.loops (p.completePass suspended).completed suspended = .again →
      Calls (.passes ticket p playback)
        (.passes ticket (p.completePass suspended) (p.closePass ticket run' playback₂))

/-- In the course of one errand the scheduler comes to another. -/
abbrev Leads : Errand H → Errand H → Prop := ReflTransGen Calls

/-! ### No way on is missing -/

theorem ends_poll {task : Task H} {cx : Context H} (h : (poll task cx).Ends) :
    ∃ progress task' cx', (Job.poll task cx progress task' cx').Returns := by
  obtain ⟨j, hj, hreturns⟩ := h
  cases j <;> cases hj
  exact ⟨_, _, _, hreturns⟩

theorem ends_visit {s : Sequence H} {nested : NestedId} {position : Nat} {entry : SequenceEntry H}
    {parallel : Bool} {cx : Context H} (h : (visit s nested position entry parallel cx).Ends) :
    ∃ outcome cx', (Job.visit s nested position entry parallel cx outcome cx').Returns := by
  obtain ⟨j, hj, hreturns⟩ := h
  cases j <;> cases hj
  exact ⟨_, _, hreturns⟩

theorem ends_walk {s : Sequence H} {nested : NestedId} {cx : Context H}
    (h : (walk s nested cx).Ends) :
    ∃ progress current cx', (Job.walk s nested cx progress current cx').Returns := by
  obtain ⟨j, hj, hreturns⟩ := h
  cases j <;> cases hj
  exact ⟨_, _, _, hreturns⟩

theorem ends_fork {s : Sequence H} {nested : NestedId} {range : List (SequenceEntry H × Nat)}
    {next : Nat} {join : Join (Task H)} {cx : Context H}
    (h : (fork s nested range next join cx).Ends) :
    ∃ join' cx', (Job.fork s nested range next join cx join' cx').Returns := by
  obtain ⟨j, hj, hreturns⟩ := h
  cases j <;> cases hj
  exact ⟨_, _, hreturns⟩

theorem ends_step {run : SequenceRun H} {playback : Playback H} (h : (step run playback).Ends) :
    ∃ progress run' playback', (Job.step run playback progress run' playback').Returns := by
  obtain ⟨j, hj, hreturns⟩ := h
  cases j <;> cases hj
  exact ⟨_, _, _, hreturns⟩

theorem ends_branches {tasks : List (Task H)} {cx : Context H} (h : (branches tasks cx).Ends) :
    ∃ pending finished cx', (Job.branches tasks cx pending finished cx').Returns := by
  obtain ⟨j, hj, hreturns⟩ := h
  cases j <;> cases hj
  exact ⟨_, _, _, hreturns⟩

section Progress

variable {s : Sequence H} {nested : NestedId} {cx : Context H}

theorem work_ends {ticket : Nat} {w : Work H (Task H)}
    (h : ∀ b, Calls (work ticket w cx) b → b.Ends) : (work ticket w cx).Ends := by
  cases w with
  | untilTime deadline => exact ⟨_, rfl, .untilTime⟩
  | untilFrame frame => exact ⟨_, rfl, .untilFrame⟩
  | untilParameter name expected => exact ⟨_, rfl, .untilParameter⟩
  | hosted w => exact ⟨.work ticket (.hosted w) cx _ _ _, rfl, .hosted rfl⟩
  | block b =>
      obtain ⟨j, hj, hreturns⟩ := h _ .block
      cases j <;> cases hj
      exact ⟨_, rfl, .block hreturns⟩
  | passes p =>
      obtain ⟨j, hj, hreturns⟩ := h _ .nested
      cases j <;> cases hj
      exact ⟨_, rfl, .nested hreturns⟩

theorem fork_ends {range : List (SequenceEntry H × Nat)} {next : Nat} {join : Join (Task H)}
    (h : ∀ b, Calls (fork s nested range next join cx) b → b.Ends) :
    (fork s nested range next join cx).Ends := by
  rcases range with _ | ⟨⟨entry, position⟩, rest⟩
  · exact ⟨_, rfl, .forkEnd⟩
  by_cases hpast : position < next
  · obtain ⟨join', cx', hfork⟩ := ends_fork (h _ (.forkPast hpast))
    exact ⟨_, rfl, .forkPast hpast hfork⟩
  have hle : next ≤ position := Nat.le_of_not_lt hpast
  cases hstop : cx.stopRequested with
  | true => exact ⟨_, rfl, .forkStopped hle hstop⟩
  | false =>
      obtain ⟨outcome, cx₁, hvisit⟩ := ends_visit (h _ (.forkVisit hle hstop))
      obtain ⟨join', cx', hfork⟩ := ends_fork (h _ (.forkNext hle hstop hvisit))
      exact ⟨_, rfl, .forkNext hle hstop hvisit hfork⟩

theorem visit_ends {position : Nat} {entry : SequenceEntry H} {parallel : Bool}
    (h : ∀ b, Calls (visit s nested position entry parallel cx) b → b.Ends) :
    (visit s nested position entry parallel cx).Ends := by
  rcases hinvoke : cx.invoke s nested position entry parallel with ⟨_ | task, cx₁⟩
  · exact ⟨.visit _ _ _ _ _ _ _ _, rfl, .visitFinished hinvoke⟩
  obtain ⟨progress, task', cx', hpoll⟩ := ends_poll (h _ (.firstPoll hinvoke))
  cases progress with
  | pending => exact ⟨.visit _ _ _ _ _ _ _ _, rfl, .visitPending hinvoke hpoll⟩
  | done => exact ⟨.visit _ _ _ _ _ _ _ _, rfl, .visitDone hinvoke hpoll⟩

theorem branches_ends {tasks : List (Task H)}
    (h : ∀ b, Calls (branches tasks cx) b → b.Ends) : (branches tasks cx).Ends := by
  rcases tasks with _ | ⟨task, rest⟩
  · exact ⟨_, rfl, .branchesEnd⟩
  obtain ⟨progress, task', cx₁, hpoll⟩ := ends_poll (h _ .branchPoll)
  cases progress with
  | pending =>
      obtain ⟨_, _, _, hrest⟩ := ends_branches (h _ (.branchesPending hpoll))
      exact ⟨_, rfl, .branchesPending hpoll hrest⟩
  | done =>
      obtain ⟨_, _, _, hrest⟩ := ends_branches (h _ (.branchesDone hpoll))
      exact ⟨_, rfl, .branchesDone hpoll hrest⟩

theorem walk_ends (h : ∀ b, Calls (walk s nested cx) b → b.Ends) : (walk s nested cx).Ends := by
  cases hstop : cx.stopRequested with
  | true => exact ⟨_, rfl, .walkStopped hstop⟩
  | false =>
      rcases hnode : cx.nextNode? s with _ | ⟨position, entry⟩
      · exact ⟨_, rfl, .walkEnd hstop hnode⟩
      obtain ⟨outcome, cx₁, hvisit⟩ := ends_visit (h _ (.walkVisit hstop hnode))
      cases outcome with
      | pending task => exact ⟨_, rfl, .walkPending hstop hnode hvisit⟩
      | done =>
          obtain ⟨_, _, _, hwalk⟩ := ends_walk (h _ (.walkNext hstop hnode hvisit))
          exact ⟨_, rfl, .walkNext hstop hnode hvisit hwalk⟩

theorem resume_ends {current : Option (Task H)}
    (h : ∀ b, Calls (resume s nested current cx) b → b.Ends) :
    (resume s nested current cx).Ends := by
  cases current with
  | none =>
      obtain ⟨_, _, _, hwalk⟩ := ends_walk (h _ .resumeWalk)
      exact ⟨_, rfl, .resumeWalk hwalk⟩
  | some task =>
      obtain ⟨progress, task', cx₁, hpoll⟩ := ends_poll (h _ .resumePoll)
      cases progress with
      | pending => exact ⟨_, rfl, .resumePending hpoll⟩
      | done =>
          obtain ⟨_, _, _, hwalk⟩ := ends_walk (h _ (.resumeNext hpoll))
          exact ⟨_, rfl, .resumeDone hpoll hwalk⟩

theorem passes_ends {ticket : Nat} {p : Passes H (Task H)} {pb : Playback H}
    (h : ∀ b, Calls (passes ticket p pb) b → b.Ends) : (passes ticket p pb).Ends := by
  rcases hcurrent : p.current ticket pb with ⟨run, suspended, pb₁⟩
  obtain ⟨progress, run', pb₂, hstep⟩ := ends_step (h _ (.pass hcurrent))
  cases progress with
  | pending => exact ⟨_, rfl, .passesPending hcurrent hstep⟩
  | done =>
      cases hnext : Passes.continuation p.loops (p.completePass suspended).completed suspended with
      | finish => exact ⟨_, rfl, .passesFinished hcurrent hstep hnext⟩
      | yield => exact ⟨_, rfl, .passesYield hcurrent hstep hnext⟩
      | again =>
          obtain ⟨j, hj, hreturns⟩ := h _ (.nextPass hcurrent hstep hnext)
          cases j <;> cases hj
          exact ⟨_, rfl, .passesAgain hcurrent hstep hnext hreturns⟩

end Progress

/-- **Progress.** An errand comes to an end if everything that it calls does. So an errand without
an end calls another one without an end. -/
theorem ends_of_calls {a : Errand H} (h : ∀ b, a.Calls b → b.Ends) : a.Ends := by
  cases a with
  -- errands that call one other
  | poll task cx =>
      obtain ⟨j, hj, hreturns⟩ := h _ .work
      cases j <;> cases hj
      rename_i progress work' cx'
      cases progress with
      | pending => exact ⟨_, rfl, .pollPending hreturns⟩
      | done => exact ⟨_, rfl, .pollDone hreturns⟩
  | work ticket work cx => exact work_ends h
  | join s nested first stop join cx =>
      cases join with
      | none =>
          obtain ⟨join', cx', hfork⟩ := ends_fork (h _ .fork)
          exact ⟨_, rfl, .joinStarted hfork⟩
      | some join =>
          obtain ⟨pending, finished, cx', hbranches⟩ := ends_branches (h _ .branches)
          exact ⟨_, rfl, .joinPolled hbranches⟩
  | step run playback =>
      obtain ⟨s, nested, cursor, current | join⟩ := run
      · obtain ⟨j, hj, hreturns⟩ := h _ .sequential
        cases j <;> cases hj
        exact ⟨_, rfl, .stepSequential hreturns⟩
      · obtain ⟨j, hj, hreturns⟩ := h _ .parallel
        cases j <;> cases hj
        exact ⟨_, rfl, .stepParallel hreturns⟩
  | visit s nested position entry parallel cx => exact visit_ends h
  -- errands that go on with more of their kind
  | fork s nested range next join cx => exact fork_ends h
  | branches tasks cx => exact branches_ends h
  | walk s nested cx => exact walk_ends h
  | resume s nested current cx => exact resume_ends h
  | passes ticket p playback => exact passes_ends h

/-! ### Invocations on the way -/

/-- In the course of the errand the scheduler visits a node, and this is the record of it. -/
def Comes (a : Errand H) (i : Invocation H) : Prop :=
  ∃ cx, a.Leads (.visit i.sequence i.nested i.position i.entry i.parallel cx) ∧
    i = cx.invocation i.sequence i.nested i.position i.entry i.parallel

theorem Comes.of_call {a b : Errand H} {i : Invocation H} (hb : b.Comes i) (h : a.Calls b) :
    a.Comes i := by
  obtain ⟨cx, hleads, hi⟩ := hb
  exact ⟨cx, .head h hleads, hi⟩

/-- A stretch of a step. The invocations in it are those of nodes that the scheduler comes to in the
course of the errand. -/
def Covers (a : Errand H) (pb pb' : Playback H) : Prop :=
  ∃ is, pb.Stretch is pb' ∧ ∀ i ∈ is, a.Comes i

namespace Covers

variable {a b : Errand H} {pb pb₁ pb' : Playback H}

theorem quiet (h : pb.Stretch [] pb') : a.Covers pb pb' := ⟨[], h, by simp⟩

theorem tell (pb : Playback H) {e : Event H} (hsignal : e.isSignal = false)
    (hinvoked : e.invocation? = none) : a.Covers pb (pb.record e) := by
  have hrecord := Playback.Stretch.record pb hsignal
  rw [hinvoked] at hrecord
  exact quiet hrecord

theorem trans (h : a.Covers pb pb₁) (h' : a.Covers pb₁ pb') : a.Covers pb pb' := by
  obtain ⟨is, hs, hc⟩ := h
  obtain ⟨js, hs', hc'⟩ := h'
  exact ⟨js ++ is, hs.trans hs', List.forall_mem_append.mpr ⟨hc', hc⟩⟩

theorem of_call (hb : b.Covers pb pb') (h : a.Calls b) : a.Covers pb pb' := by
  obtain ⟨is, hs, hc⟩ := hb
  exact ⟨is, hs, fun i hi => (hc i hi).of_call h⟩

/-- The invocation that a visit begins with. -/
theorem invoke {s : Sequence H} {nested : NestedId} {position : Nat} {entry : SequenceEntry H}
    {parallel : Bool} {cx cx' : Context H} {left : Option (Task H)}
    (h : cx.invoke s nested position entry parallel = (left, cx')) :
    (visit s nested position entry parallel cx).Covers cx.playback cx'.playback :=
  ⟨_, Context.stretch_invoke h, List.forall_mem_singleton.mpr ⟨cx, .refl, rfl⟩⟩

/-- In front of a pass there may be its start. -/
theorem current {ticket : Nat} {p : Passes H (Task H)} {run : SequenceRun H} {suspended : Bool}
    (hcurrent : p.current ticket pb = (run, suspended, pb₁)) (h : (step run pb₁).Covers pb₁ pb') :
    (passes ticket p pb).Covers pb pb' :=
  (quiet (Passes.stretch_current hcurrent)).trans (h.of_call (.pass hcurrent))

end Covers

end Errand

open Errand (Covers)

/-- **Invocations.** Each job is a stretch of its step. The invocations in it are those of the nodes
that the scheduler came to. -/
theorem Job.Returns.covers {j : Job H} (h : j.Returns) : j.errand.Covers j.before j.after := by
  induction h with
  -- polls and work
  | pollPending _ ih => exact (Covers.tell _ rfl rfl).trans (ih.of_call .work)
  | pollDone _ ih =>
      exact ((Covers.tell _ rfl rfl).trans (ih.of_call .work)).trans (.tell _ rfl rfl)
  | untilTime | untilFrame | untilParameter => exact .quiet (.refl _)
  | hosted _ => exact .quiet (Context.stretch_absorb _ _)
  | block _ ih => simpa [before, after, errand] using ih.of_call .block
  | nested _ ih => exact ih.of_call .nested
  -- joins, their forks and their branches
  | joinPolled _ ih => exact (ih.of_call .branches).trans (.tell _ rfl rfl)
  | joinStarted _ ih => exact ih.of_call .fork
  | forkEnd | forkStopped => exact .quiet (.refl _)
  | forkPast hpast _ ih => exact ih.of_call (.forkPast hpast)
  | forkNext hle hgo hvisit _ ih ih' =>
      exact (ih.of_call (.forkVisit hle hgo)).trans (ih'.of_call (.forkNext hle hgo hvisit))
  | visitFinished heq => exact .invoke heq
  | visitDone heq _ ih =>
      exact ((Covers.invoke heq).trans (ih.of_call (.firstPoll heq))).trans
        (.quiet (Context.stretch_release _ _))
  | visitPending heq _ ih => exact (Covers.invoke heq).trans (ih.of_call (.firstPoll heq))
  | branchesEnd => exact .quiet (.refl _)
  | branchesDone hpoll _ ih ih' =>
      exact ((ih.of_call .branchPoll).trans (.quiet (Context.stretch_release _ _))).trans
        (ih'.of_call (.branchesDone hpoll))
  | branchesPending hpoll _ ih ih' =>
      exact (ih.of_call .branchPoll).trans (ih'.of_call (.branchesPending hpoll))
  -- runs and passes
  | walkStopped | walkEnd => exact .quiet (.refl _)
  | walkNext hgo hnext hvisit _ ih ih' =>
      exact (ih.of_call (.walkVisit hgo hnext)).trans (ih'.of_call (.walkNext hgo hnext hvisit))
  | walkPending hgo hnext _ ih => exact ih.of_call (.walkVisit hgo hnext)
  | resumeWalk _ ih => exact ih.of_call .resumeWalk
  | resumeDone hpoll _ ih ih' =>
      exact ((ih.of_call .resumePoll).trans (.quiet (Context.stretch_release _ _))).trans
        (ih'.of_call (.resumeNext hpoll))
  | resumePending _ ih => exact ih.of_call .resumePoll
  | stepSequential _ ih => exact ih.of_call .sequential
  | stepParallel _ ih => exact ih.of_call .parallel
  | passesPending hcurrent _ ih => exact .current hcurrent ih
  | passesFinished hcurrent _ _ ih | passesYield hcurrent _ _ ih =>
      exact (Covers.current hcurrent ih).trans (.quiet (Passes.stretch_closePass ..))
  | passesAgain hcurrent hstep hagain _ ih ih' =>
      exact ((Covers.current hcurrent ih).trans (.quiet (Passes.stretch_closePass ..))).trans
        (ih'.of_call (.nextPass hcurrent hstep hagain))

/-- No job changes the bindings. -/
theorem Job.Returns.bindings {j : Job H} (h : j.Returns) :
    j.after.bindings = j.before.bindings := by
  obtain ⟨is, hs, -⟩ := h.covers
  exact hs.bindings

end Sequencer
