import Sequencer.Proofs.Binding.Occurrences
import Sequencer.Proofs.Playback.Scope

/-!
# Sequencer.Proofs.Playback.Whereabouts

Where in a tree of sequences the scheduler is.

A task belongs to the occurrence whose node left it (`Task.Belongs`). The tasks of a block belong to
the occurrence of the block, and the tasks of a nested sequence to the occurrence that is nested. A
`Spot` is an errand together with the innermost occurrence around it, which changes where the
scheduler goes on with the passes of a nested sequence and nowhere else.

What a job leaves belongs where the job took place (`Job.Returns.leavesTo`). So the scheduler never
loses its way: each errand belongs to the occurrence around it, and that one is reached by a way
down the tree (`Spot.Leads.belongs`). A nested sequence runs under the identity of the node that
nests it, from the invocation of the node to its last poll (`Context.place?_invoke`,
`Job.Returns.stays`).
-/

namespace Sequencer

open Relation

variable {H : Host}

/-! ### Tasks -/

/-- The occurrence that a run is a pass over. -/
def Run.place (run : SequenceRun H) : Reached H := ⟨run.sequence, run.nested⟩

/-- The occurrence whose nodes a block starts. -/
def Block.place (b : Block H (Task H)) : Reached H := ⟨b.sequence, b.nested⟩

/-- The occurrence that the passes are over. -/
def Passes.place (p : Passes H (Task H)) : Reached H := ⟨p.sequence, p.identity⟩

namespace Work

/-- The occurrence that the tasks belong to which a piece of work of `r` owns. -/
def inner (r : Reached H) : Work H (Task H) → Reached H
  | .passes p => p.place
  | _ => r

/-- A node of `r` may have left this work. -/
def Fits (r : Reached H) : Work H (Task H) → Prop
  | .block b => b.place = r
  | .passes p => r.Nests p.place ∧ ∀ run ∈ p.run, run.place = p.place
  | _ => True

end Work

/-- A node of `r` left the task, and so it is with the tasks below. -/
inductive Task.Belongs : Reached H → Task H → Prop
  | intro {r : Reached H} {task : Task H} : task.work.Fits r →
      (∀ t ∈ task.work.tasks, Belongs (task.work.inner r) t) → Belongs r task

/-- The same of a piece of work. -/
def Work.Belongs (r : Reached H) (work : Work H (Task H)) : Prop :=
  work.Fits r ∧ ∀ t ∈ work.tasks, t.Belongs (work.inner r)

/-- A pass over `r`, with tasks that belong to `r`. -/
def Run.Belongs (r : Reached H) (run : SequenceRun H) : Prop :=
  run.place = r ∧ ∀ t ∈ run.tasks, t.Belongs r

/-- Passes over `r`. -/
def Passes.Belongs (r : Reached H) (p : Passes H (Task H)) : Prop :=
  p.place = r ∧ ∀ run ∈ p.run, run.Belongs r

section Tasks

variable {r : Reached H}

theorem Task.belongs_iff {task : Task H} : task.Belongs r ↔ task.work.Belongs r :=
  ⟨fun ⟨hfits, htasks⟩ => ⟨hfits, htasks⟩, fun ⟨hfits, htasks⟩ => ⟨hfits, htasks⟩⟩

theorem Work.belongs_block {b : Block H (Task H)} :
    (Work.block b).Belongs r ↔ b.place = r ∧ ∀ j ∈ b.join, ∀ t ∈ j.branches, t.Belongs r := by
  obtain ⟨sequence, nested, first, stop, join⟩ := b
  cases join <;> simp [Belongs, Fits, tasks, inner]

theorem Work.belongs_passes {p : Passes H (Task H)} :
    (Work.passes p).Belongs r ↔ r.Nests p.place ∧ p.Belongs p.place := by
  obtain ⟨sequence, identity, loops, completed, run, suspended⟩ := p
  cases run with
  | none => simp [Belongs, Fits, tasks, inner, Passes.Belongs]
  | some run => simp [Belongs, Fits, tasks, inner, Passes.Belongs, Run.Belongs, and_assoc]

theorem Run.belongs_sequential {s : Sequence H} {nested : NestedId} {cursor : Cursor}
    {current : Option (Task H)} :
    Run.Belongs r ⟨s, nested, cursor, .sequential current⟩ ↔
      (⟨s, nested⟩ : Reached H) = r ∧ ∀ t ∈ current, t.Belongs r := by
  simp [Belongs, place, tasks]

theorem Run.belongs_parallel {s : Sequence H} {nested : NestedId} {cursor : Cursor}
    {join : Option (Join (Task H))} :
    Run.Belongs r ⟨s, nested, cursor, .parallel join⟩ ↔
      (⟨s, nested⟩ : Reached H) = r ∧ ∀ j ∈ join, ∀ t ∈ j.branches, t.Belongs r := by
  cases join <;> simp [Belongs, place, tasks]

theorem Run.belongs_new (s : Sequence H) (nested : NestedId) :
    (Run.new s nested : SequenceRun H).Belongs ⟨s, nested⟩ :=
  ⟨rfl, by simp [Run.tasks_new]⟩

theorem Passes.belongs_current {ticket : Nat} {p : Passes H (Task H)} (hp : p.Belongs r)
    {pb pb' : Playback H} {run : SequenceRun H} {suspended : Bool}
    (h : p.current ticket pb = (run, suspended, pb')) : run.Belongs r := by
  obtain ⟨rfl, hrun⟩ := hp
  unfold Passes.current at h
  split at h
  · rename_i current hcurrent
    cases h
    exact hrun _ hcurrent
  · cases h
    exact Run.belongs_new p.sequence p.identity

theorem Passes.belongs_completePass {p : Passes H (Task H)} (hp : p.Belongs r) (suspended : Bool) :
    (p.completePass suspended).Belongs r :=
  ⟨hp.1, by simp [completePass]⟩

/-- The task that an invoked node leaves belongs to the occurrence it was invoked in. -/
theorem Context.belongs_invoke {cx cx' : Context H} {s : Sequence H} {nested : NestedId}
    {position : Nat} {entry : SequenceEntry H} (hentry : s.nodes[position]? = some entry)
    {parallel : Bool} {task : Task H}
    (h : cx.invoke s nested position entry parallel = (some task, cx')) :
    task.Belongs ⟨s, nested⟩ := by
  obtain ⟨work, cx₁, hstart, rfl, -⟩ := Context.invoke_some h
  rw [Task.belongs_iff]
  rcases Node.start_cases hstart with ⟨count, first, stop, -, rfl⟩ |
    ⟨inner, identity, loops, hnode, rfl⟩ | hplain
  · exact Work.belongs_block.mpr ⟨rfl, by simp⟩
  · refine Work.belongs_passes.mpr ⟨?_, rfl, by simp⟩
    exact Sequence.mem_nestedSequences (List.mem_of_getElem? hentry) hnode
  · cases work with
    | block | passes => exact hplain.elim
    | untilTime | untilFrame | untilParameter | hosted =>
        exact ⟨trivial, by simp [launch, Work.tasks]⟩

end Tasks

/-! ### Jobs -/

/-- What the scheduler is given belongs to `r`. -/
def Errand.Belongs (r : Reached H) : Errand H → Prop
  | .poll task _ => task.Belongs r
  | .work _ w _ => w.Belongs r
  | .join s nested _ _ left _ =>
    (⟨s, nested⟩ : Reached H) = r ∧ ∀ j ∈ left, ∀ t ∈ j.branches, t.Belongs r
  | .fork s nested range _ j _ =>
    (⟨s, nested⟩ : Reached H) = r ∧ (∀ e ∈ range, s.nodes[e.2]? = some e.1) ∧
      ∀ t ∈ j.branches, t.Belongs r
  | .visit s nested position entry _ _ =>
    (⟨s, nested⟩ : Reached H) = r ∧ s.nodes[position]? = some entry
  | .branches tasks _ => ∀ t ∈ tasks, t.Belongs r
  | .walk s nested _ => (⟨s, nested⟩ : Reached H) = r
  | .resume s nested current _ => (⟨s, nested⟩ : Reached H) = r ∧ ∀ t ∈ current, t.Belongs r
  | .step run _ => run.Belongs r
  | .passes _ p _ => p.Belongs r

/-- What the job leaves belongs to `r`. -/
def Job.LeavesTo (r : Reached H) : Job H → Prop
  | .poll _ _ _ task _ => task.Belongs r
  | .work _ _ _ _ w _ => w.Belongs r
  | .join _ _ _ _ _ _ j _ | .fork _ _ _ _ _ _ j _ => ∀ t ∈ j.branches, t.Belongs r
  | .visit _ _ _ _ _ _ outcome _ => ∀ t ∈ outcome.tasks, t.Belongs r
  | .branches _ _ pending _ _ => ∀ t ∈ pending, t.Belongs r
  | .walk _ _ _ _ current _ | .resume _ _ _ _ _ current _ => ∀ t ∈ current, t.Belongs r
  | .step _ _ _ run _ => run.Belongs r
  | .passes _ _ _ _ p _ => p.Belongs r

/-- **Whereabouts of tasks.** What a job leaves belongs where the job took place. -/
theorem Job.Returns.leavesTo {j : Job H} (h : j.Returns) {r : Reached H}
    (hj : j.errand.Belongs r) : j.LeavesTo r := by
  induction h generalizing r with
  -- polls and work
  | pollPending _ ih | pollDone _ ih =>
      exact Task.belongs_iff.mpr (ih (Task.belongs_iff.mp hj))
  | untilTime | untilFrame | untilParameter => exact hj
  | hosted _ => exact ⟨trivial, by simp [Work.tasks]⟩
  | block _ ih =>
      have hl := ih (Work.belongs_block.mp hj)
      exact Work.belongs_block.mpr ⟨hj.1, by rintro join ⟨⟩; exact hl⟩
  | nested _ ih =>
      obtain ⟨hnests, hpasses⟩ := Work.belongs_passes.mp hj
      have hl := ih hpasses
      have hplace := hl.1
      exact Work.belongs_passes.mpr (by rw [hplace]; exact ⟨hnests, hl⟩)
  -- joins, their forks and their branches
  | joinPolled _ ih => exact ih (hj.2 _ rfl)
  | joinStarted _ ih => exact ih ⟨hj.1, fun e he => Sequence.getElem?_of_range he, by simp⟩
  | forkEnd => exact hj.2.2
  | forkStopped _ _ => exact hj.2.2
  | forkPast _ _ ih => exact ih ⟨hj.1, fun e he => hj.2.1 e (List.mem_cons_of_mem _ he), hj.2.2⟩
  | forkNext _ _ _ _ ihv ihf =>
      obtain ⟨hr, hrange, hbranches⟩ := hj
      have hl := ihv ⟨hr, hrange _ List.mem_cons_self⟩
      exact ihf ⟨hr, fun e he => hrange e (List.mem_cons_of_mem _ he),
        Join.forall_count hbranches hl⟩
  | visitFinished _ => simp [LeavesTo, Outcome.tasks]
  | visitDone _ _ _ => simp [LeavesTo, Outcome.tasks]
  | visitPending heq _ ih =>
      obtain ⟨rfl, hentry⟩ := hj
      exact List.forall_mem_singleton.mpr (ih (Context.belongs_invoke hentry heq))
  | branchesEnd => exact hj
  | branchesDone _ _ _ ih' => exact ih' fun t ht => hj t (List.mem_cons_of_mem _ ht)
  | branchesPending _ _ ih ih' =>
      exact List.forall_mem_cons.mpr
        ⟨ih (hj _ List.mem_cons_self), ih' fun t ht => hj t (List.mem_cons_of_mem _ ht)⟩
  -- runs: the walk hands on the sequence, and what is left is at a node of it
  | walkStopped _ => simp [LeavesTo]
  | walkEnd _ _ => simp [LeavesTo]
  | walkNext _ _ _ _ _ ih' => exact ih' hj
  | walkPending _ hnext _ ih =>
      have hl := ih ⟨hj, (Context.nextNode?_eq_some.mp hnext).2⟩
      exact fun t ht => hl t (by simpa [Outcome.tasks, eq_comm] using ht)
  | resumeWalk _ ih => exact ih hj.1
  | resumeDone _ _ _ ih' => exact ih' hj.1
  | resumePending _ ih =>
      have hl := ih (hj.2 _ rfl)
      rintro t ⟨⟩
      exact hl
  | stepSequential _ ih =>
      have hrun := Run.belongs_sequential.mp hj
      exact Run.belongs_sequential.mpr ⟨hrun.1, ih hrun⟩
  | stepParallel _ ih =>
      have hrun := Run.belongs_parallel.mp hj
      have hl := ih hrun
      exact Run.belongs_parallel.mpr ⟨hrun.1, by rintro join ⟨⟩; exact hl⟩
  -- passes, which are those of one occurrence
  | passesPending hcur _ ih =>
      have hl := ih (Passes.belongs_current hj hcur)
      exact ⟨hj.1, by rintro run ⟨⟩; exact hl⟩
  | passesFinished _ _ _ _ | passesYield _ _ _ _ => exact Passes.belongs_completePass hj _
  | passesAgain _ _ _ _ _ ih' => exact ih' (Passes.belongs_completePass hj _)

/-! ### The occurrence of a nested sequence -/

/-- The occurrence that a task runs the passes of. -/
def Work.place? : Work H (Task H) → Option (Reached H)
  | .passes p => some p.place
  | _ => none

/-- A node that nests a sequence leaves it to run under the node's identity. -/
theorem Context.place?_invoke {cx cx' : Context H} {s : Sequence H} {nested : NestedId}
    {position : Nat} {entry : SequenceEntry H} {parallel : Bool} {task : Task H}
    (h : cx.invoke s nested position entry parallel = (some task, cx')) {inner : Sequence H}
    {identity : NestedId} {loops : LoopCount} (hnode : entry.node = .nested inner identity loops) :
    task.work.place? = some ⟨inner, identity⟩ := by
  obtain ⟨work, cx₁, hstart, rfl, -⟩ := Context.invoke_some h
  rw [hnode] at hstart
  cases hstart
  rfl

/-- The job goes on with the passes of the same occurrence. -/
def Job.Stays : Job H → Prop
  | .poll task _ _ task' _ => task'.work.place? = task.work.place?
  | .work _ w _ _ w' _ => w'.place? = w.place?
  | .passes _ p _ _ p' _ => p'.place = p.place
  | _ => True

theorem Job.Returns.stays {j : Job H} (h : j.Returns) : j.Stays := by
  induction h with
  | pollPending _ ih | pollDone _ ih => exact ih
  | untilTime | untilFrame | untilParameter | hosted | block => exact rfl
  | nested _ ih => exact congrArg some ih
  | passesPending | passesFinished | passesYield => exact rfl
  | passesAgain _ _ _ _ _ ih => exact ih
  | _ => trivial

/-! ### Spots -/

/-- An errand, and the innermost occurrence around it. -/
structure Spot (H : Host) where
  errand : Errand H
  around : Reached H

/-- The occurrence around an errand that the scheduler comes to from within `r`. -/
def Errand.inner (r : Reached H) : Errand H → Reached H
  | .passes _ p _ => p.place
  | _ => r

/-- From one spot the scheduler comes to another. -/
def Spot.Calls (a b : Spot H) : Prop :=
  a.errand.Calls b.errand ∧ b.around = b.errand.inner a.around

/-- In the course of one errand the scheduler comes from one spot to another. -/
abbrev Spot.Leads : Spot H → Spot H → Prop := ReflTransGen Spot.Calls

/-- Wherever the scheduler comes to, it is around somewhere. -/
theorem Errand.Leads.exists_spot {a b : Errand H} (h : a.Leads b) (r : Reached H) :
    ∃ q, Spot.Leads ⟨a, r⟩ ⟨b, q⟩ := by
  induction h with
  | refl => exact ⟨r, .refl⟩
  | @tail b c _ hcall ih =>
      obtain ⟨q, hq⟩ := ih
      exact ⟨c.inner q, hq.tail ⟨hcall, rfl⟩⟩

/-- What the scheduler comes to belongs to the occurrence around it, which is the one around before
or one that it nests. -/
theorem Errand.Calls.belongs {a b : Errand H} (h : a.Calls b) {r : Reached H}
    (ha : a.Belongs r) :
    b.Belongs (b.inner r) ∧ ReflTransGen Reached.Nests r (b.inner r) := by
  cases h with
  | work => exact ⟨Task.belongs_iff.mp ha, .refl⟩
  | block => exact ⟨Work.belongs_block.mp ha, .refl⟩
  | nested =>
      obtain ⟨hnests, hpasses⟩ := Work.belongs_passes.mp ha
      exact ⟨hpasses, .single hnests⟩
  | branches => exact ⟨ha.2 _ rfl, .refl⟩
  | fork => exact ⟨⟨ha.1, fun e he => Sequence.getElem?_of_range he, by simp⟩, .refl⟩
  | forkPast _ => exact ⟨⟨ha.1, fun e he => ha.2.1 e (List.mem_cons_of_mem _ he), ha.2.2⟩, .refl⟩
  | forkVisit _ _ => exact ⟨⟨ha.1, ha.2.1 _ List.mem_cons_self⟩, .refl⟩
  | forkNext _ _ hvisit =>
      obtain ⟨hr, hrange, hbranches⟩ := ha
      have hl := hvisit.leavesTo ⟨hr, hrange _ List.mem_cons_self⟩
      exact ⟨⟨hr, fun e he => hrange e (List.mem_cons_of_mem _ he),
        Join.forall_count hbranches hl⟩, .refl⟩
  | firstPoll heq =>
      obtain ⟨rfl, hentry⟩ := ha
      exact ⟨Context.belongs_invoke hentry heq, .refl⟩
  | branchPoll => exact ⟨ha _ List.mem_cons_self, .refl⟩
  | branchesDone _ | branchesPending _ =>
      exact ⟨fun t ht => ha t (List.mem_cons_of_mem _ ht), .refl⟩
  | walkVisit _ hnext => exact ⟨⟨ha, (Context.nextNode?_eq_some.mp hnext).2⟩, .refl⟩
  | walkNext _ _ _ => exact ⟨ha, .refl⟩
  | resumeWalk => exact ⟨ha.1, .refl⟩
  | resumePoll => exact ⟨ha.2 _ rfl, .refl⟩
  | resumeNext _ => exact ⟨ha.1, .refl⟩
  | sequential => exact ⟨Run.belongs_sequential.mp ha, .refl⟩
  | parallel => exact ⟨Run.belongs_parallel.mp ha, .refl⟩
  | pass hcur => exact ⟨Passes.belongs_current ha hcur, .refl⟩
  | nextPass _ _ _ =>
      obtain rfl := ha.1
      exact ⟨Passes.belongs_completePass ha _, .refl⟩

/-- **Whereabouts.** The scheduler is never at an errand that does not belong to the occurrence
around it, and what is around it is reached by a way down the tree. -/
theorem Spot.Leads.belongs {a b : Spot H} (h : a.Leads b) (ha : a.errand.Belongs a.around) :
    b.errand.Belongs b.around ∧ ReflTransGen Reached.Nests a.around b.around := by
  induction h with
  | refl => exact ⟨ha, .refl⟩
  | @tail b c _ hcall ih =>
      obtain ⟨hb, hdown⟩ := ih
      obtain ⟨hcalls, haround⟩ := hcall
      obtain ⟨hc, hfurther⟩ := hcalls.belongs hb
      rw [haround]
      exact ⟨hc, hdown.trans hfurther⟩

end Sequencer
