import Sequencer.Proofs.Cursor
import Sequencer.Proofs.Nesting
import Sequencer.Proofs.Playback.Errands

/-!
# Sequencer.Proofs.Playback.Scope

Which sequences a job may invoke nodes of. A task names the sequences it may still start nodes of:
a block only until its branches are started, a nested sequence in every pass. A task is confined to
a set of sequences if it and the tasks it owns start nodes of these sequences only.

A job that is given confined tasks leaves such tasks (`Job.Returns.left`), and the scheduler comes
to nodes of these sequences only (`Errand.Leads.given`). `Job.Returns.stretch` says both.
-/

namespace Sequencer

variable {H : Host}

namespace Run

/-- The sequence that a run may still start nodes of. -/
def sources : SequenceRun H → List (Sequence H)
  | ⟨_, _, _, .parallel (some _)⟩ => []
  | ⟨sequence, _, _, _⟩ => [sequence]

/-- The tasks that a run owns. -/
def tasks : SequenceRun H → List (Task H)
  | ⟨_, _, _, .sequential current⟩ => current.toList
  | ⟨_, _, _, .parallel join⟩ => (join.map (·.branches)).getD []

end Run

namespace Work

/-- The sequences that a piece of work may still start nodes of. -/
def sources : Work H (Task H) → List (Sequence H)
  | .block ⟨sequence, _, _, _, none⟩ => [sequence]
  | .passes ⟨sequence, _, _, _, run, _⟩ => sequence :: (run.map Run.sources).getD []
  | _ => []

/-- The tasks that a piece of work owns. -/
def tasks : Work H (Task H) → List (Task H)
  | .block b => (b.join.map (·.branches)).getD []
  | .passes p => (p.run.map Run.tasks).getD []
  | _ => []

end Work

/-- The task that an invoked node left. -/
def Outcome.tasks : Outcome H → List (Task H)
  | .done => []
  | .pending task => [task]

@[simp] theorem Join.count_branches (join : Join (Task H)) (outcome : Outcome H) :
    (join.count outcome).branches = join.branches ++ outcome.tasks := by
  cases outcome with
  | done => exact (List.append_nil _).symm
  | pending task => rfl

theorem Join.forall_count {P : Task H → Prop} {join : Join (Task H)} {outcome : Outcome H}
    (hjoin : ∀ t ∈ join.branches, P t) (hleft : ∀ t ∈ outcome.tasks, P t) :
    ∀ t ∈ (join.count outcome).branches, P t := by
  rw [count_branches]
  exact List.forall_mem_append.mpr ⟨hjoin, hleft⟩

/-- A task that starts nodes of sequences in `Q` only. -/
inductive Task.Confined (Q : Sequence H → Prop) : Task H → Prop
  | intro {task : Task H} :
      (∀ s ∈ task.work.sources, Q s) → (∀ t ∈ task.work.tasks, Confined Q t) → Confined Q task

/-- The same of a piece of work. -/
def Work.Confined (Q : Sequence H → Prop) (work : Work H (Task H)) : Prop :=
  (∀ s ∈ work.sources, Q s) ∧ ∀ t ∈ work.tasks, t.Confined Q

/-- The same of a run. -/
def Run.Confined (Q : Sequence H → Prop) (run : SequenceRun H) : Prop :=
  (∀ s ∈ run.sources, Q s) ∧ ∀ t ∈ run.tasks, t.Confined Q

theorem Task.confined_iff {Q : Sequence H → Prop} {task : Task H} :
    task.Confined Q ↔ task.work.Confined Q :=
  ⟨fun ⟨hs, ht⟩ => ⟨hs, ht⟩, fun ⟨hs, ht⟩ => ⟨hs, ht⟩⟩

/-- A run that is not started yet owns nothing. -/
theorem Run.tasks_new (s : Sequence H) (nested : NestedId) :
    (Run.new s nested : SequenceRun H).tasks = [] := by
  unfold Run.new
  split <;> rfl

theorem Run.sources_new (s : Sequence H) (nested : NestedId) :
    (Run.new s nested : SequenceRun H).sources = [s] := by
  unfold Run.new
  split <;> rfl

theorem Run.confined_new {Q : Sequence H → Prop} {s : Sequence H} (hs : Q s) (nested : NestedId) :
    (Run.new s nested : SequenceRun H).Confined Q :=
  ⟨by simpa [Run.sources_new] using hs, by simp [Run.tasks_new]⟩

/-- What the scheduler is given is confined. -/
def Errand.Given (Q : Sequence H → Prop) : Errand H → Prop
  | .poll task _ => task.Confined Q
  | .work _ w _ => w.Confined Q
  | .join sequence _ _ _ none _ => Q sequence
  | .join _ _ _ _ (some j) _ => ∀ t ∈ j.branches, t.Confined Q
  | .fork sequence _ range _ j _ =>
    Q sequence ∧ (∀ e ∈ range, e.1 ∈ sequence.nodes) ∧ ∀ t ∈ j.branches, t.Confined Q
  | .visit sequence _ _ entry _ _ => Q sequence ∧ entry ∈ sequence.nodes
  | .branches tasks _ => ∀ t ∈ tasks, t.Confined Q
  | .walk sequence _ _ => Q sequence
  | .resume sequence _ current _ => Q sequence ∧ ∀ t ∈ current, t.Confined Q
  | .step run _ => run.Confined Q
  | .passes _ p _ => (Work.passes p).Confined Q

/-- What a job leaves is confined. -/
def Job.Left (Q : Sequence H → Prop) : Job H → Prop
  | .poll _ _ _ task _ => task.Confined Q
  | .work _ _ _ _ w _ => w.Confined Q
  | .join _ _ _ _ _ _ j _ | .fork _ _ _ _ _ _ j _ => ∀ t ∈ j.branches, t.Confined Q
  | .visit _ _ _ _ _ _ outcome _ => ∀ t ∈ outcome.tasks, t.Confined Q
  | .branches _ _ pending _ _ => ∀ t ∈ pending, t.Confined Q
  | .walk _ _ _ _ current _ | .resume _ _ _ _ _ current _ => ∀ t ∈ current, t.Confined Q
  | .step _ _ _ run _ => run.Confined Q
  | .passes _ _ _ _ p _ => (Work.passes p).Confined Q

/-- The node that a sequence goes on with is the one at the cursor. -/
theorem Context.nextNode?_eq_some {cx : Context H} {s : Sequence H} {position : Nat}
    {entry : SequenceEntry H} :
    cx.nextNode? s = some (position, entry) ↔
      cx.cursor.index = position ∧ s.nodes[position]? = some entry := by
  simp only [nextNode?, Option.bind_eq_some_iff, Option.map_eq_some_iff, Prod.mk.injEq,
    Cursor.position?_eq_some]
  constructor
  · rintro ⟨i, hi, e, he, rfl, rfl⟩
    exact ⟨hi, he⟩
  · rintro ⟨hi, he⟩
    exact ⟨position, hi, entry, he, rfl, rfl⟩

/-- Behind the last node a sequence does not go on. -/
theorem Context.nextNode?_eq_none {cx : Context H} {s : Sequence H} {position : Nat}
    (h : cx.cursor.index = position) (hle : s.length ≤ position) : cx.nextNode? s = none := by
  rw [nextNode?, Cursor.position?_eq_some.mpr h, Option.bind_some,
    List.getElem?_eq_none hle, Option.map_none]

/-- Work that starts no node: a wait, or work of the host. -/
def Work.IsPlain : Work H (Task H) → Prop
  | .block _ | .passes _ => False
  | _ => True

/-- What an invoked node leaves is a new block of the running sequence, the passes of what it nests
before the first one, or plain work. -/
theorem Node.start_cases {node : SequenceNode H} {s : Sequence H} {nested : NestedId}
    {values : List Value} {cx cx' : Context H} {work : Work H (Task H)}
    (h : node.start s nested values cx = (some work, cx')) :
    (∃ count first stop, node = .parallelNext count ∧
        work = .block { sequence := s, nested, first, stop }) ∨
      (∃ inner identity loops, node = .nested inner identity loops ∧
        work = .passes { sequence := inner, identity, loops }) ∨
      work.IsPlain := by
  cases node with
  | skip | skipIf | stop | setParameter | log => simp [Node.start] at h
  | parallelNext count =>
      simp only [Node.start] at h
      split at h
      · simp at h
      · split at h
        · cases h
          exact .inl ⟨count, _, _, rfl, rfl⟩
        · simp at h
  | nested inner identity loops =>
      cases h
      exact .inr (.inl ⟨inner, identity, loops, rfl, rfl⟩)
  | wait | waitFrames | waitUntil =>
      simp only [Node.start] at h
      split at h
      · simp at h
      · cases h
        exact .inr (.inr trivial)
  | host n =>
      simp only [Node.start, Prod.mk.injEq, Option.map_eq_some_iff] at h
      obtain ⟨⟨w, -, rfl⟩, -⟩ := h
      exact .inr (.inr trivial)

/-- The work that a node leaves owns no tasks. A block starts nodes of the running sequence, and a
nested sequence its own; no other work starts nodes. -/
theorem Node.sources_start {node : SequenceNode H} {s : Sequence H} {nested : NestedId}
    {values : List Value} {cx cx' : Context H} {work : Work H (Task H)}
    (h : node.start s nested values cx = (some work, cx')) :
    work.tasks = [] ∧ ∀ q ∈ work.sources, (q = s ∧ ∃ count, node = .parallelNext count) ∨
      ∃ identity loops, node = .nested q identity loops := by
  rcases Node.start_cases h with ⟨count, first, stop, hnode, rfl⟩ |
    ⟨inner, identity, loops, hnode, rfl⟩ | hplain
  · exact ⟨rfl, fun q hq => .inl ⟨List.mem_singleton.mp hq, count, hnode⟩⟩
  · refine ⟨rfl, fun q hq => .inr ?_⟩
    obtain rfl : q = inner := List.mem_singleton.mp hq
    exact ⟨identity, loops, hnode⟩
  · cases work with
    | block | passes => exact hplain.elim
    | untilTime | untilFrame | untilParameter | hosted => exact ⟨rfl, by simp [Work.sources]⟩

/-- The task that an invoked node leaves is confined to what contains the node's sequence. -/
theorem Context.confined_invoke {Q : Sequence H → Prop} (hQ : NestingClosed Q) {cx cx' : Context H}
    {s : Sequence H} (hs : Q s) {nested : NestedId} {position : Nat} {entry : SequenceEntry H}
    (hentry : entry ∈ s.nodes) {parallel : Bool} {task : Task H}
    (h : cx.invoke s nested position entry parallel = (some task, cx')) : task.Confined Q := by
  obtain ⟨work, cx₁, hstart, rfl, -⟩ := Context.invoke_some h
  obtain ⟨htasks, hsources⟩ := Node.sources_start hstart
  refine .intro (fun q hq => ?_) (fun t ht => ?_)
  · rcases hsources q hq with ⟨rfl, -⟩ | ⟨identity, loops, hnode⟩
    · exact hs
    · exact hQ s hs entry hentry q identity loops hnode
  · exact absurd (htasks ▸ ht) List.not_mem_nil

/-- The pass that a poll goes on with is confined if the passes are. -/
theorem Passes.confined_current {Q : Sequence H → Prop} {ticket : Nat} {p : Passes H (Task H)}
    (hp : (Work.passes p).Confined Q) {pb pb' : Playback H} {run : SequenceRun H}
    {suspended : Bool} (h : p.current ticket pb = (run, suspended, pb')) :
    Q p.sequence ∧ run.Confined Q := by
  obtain ⟨hs, ht⟩ := hp
  have hQ : Q p.sequence := hs p.sequence (by simp [Work.sources])
  refine ⟨hQ, ?_⟩
  unfold Passes.current at h
  split at h
  · rename_i r hr
    cases h
    exact ⟨fun q hq => hs q (by simp [Work.sources, hr, hq]),
      fun t hq => ht t (by simp [Work.tasks, hr, hq])⟩
  · cases h
    exact Run.confined_new hQ p.identity

/-- Passes between two runs own nothing. -/
theorem Passes.confined_completePass {Q : Sequence H → Prop} {p : Passes H (Task H)}
    (hQ : Q p.sequence) (suspended : Bool) :
    (Work.passes (p.completePass suspended)).Confined Q :=
  ⟨by simpa [Work.sources, Passes.completePass] using hQ,
    by simp [Work.tasks, Passes.completePass]⟩

/-- What is given to the scheduler where it comes to a join. -/
theorem Block.given_join {Q : Sequence H → Prop} {b : Block H (Task H)}
    (h : (Work.block b).Confined Q) (cx : Context H) :
    (Errand.join b.sequence b.nested b.first b.stop b.join cx).Given Q := by
  obtain ⟨sequence, nested, first, stop, _ | j⟩ := b
  · exact h.1 sequence (by simp [Work.sources])
  · exact fun t ht => h.2 t (by simpa [Work.tasks] using ht)

theorem Run.given_join {Q : Sequence H → Prop} {s : Sequence H} {nested : NestedId}
    {cursor : Cursor} {join : Option (Join (Task H))}
    (h : Run.Confined Q ⟨s, nested, cursor, .parallel join⟩) (first stop : Nat) (cx : Context H) :
    (Errand.join s nested first stop join cx).Given Q := by
  cases join with
  | none => exact h.1 s (by simp [Run.sources])
  | some j => exact fun t ht => h.2 t (by simpa [Run.tasks] using ht)

theorem Run.given_resume {Q : Sequence H → Prop} {s : Sequence H} {nested : NestedId}
    {cursor : Cursor} {current : Option (Task H)}
    (h : Run.Confined Q ⟨s, nested, cursor, .sequential current⟩) (cx : Context H) :
    (Errand.resume s nested current cx).Given Q :=
  ⟨h.1 s (by simp [Run.sources]), fun t ht => h.2 t (by simpa [Run.tasks] using ht)⟩

/-- The nodes of a range are in their places. -/
theorem Sequence.getElem?_of_range {s : Sequence H} {first stop : Nat}
    {e : SequenceEntry H × Nat} (he : e ∈ (s.nodes.zipIdx.drop first).take (stop - first)) :
    s.nodes[e.2]? = some e.1 :=
  List.mk_mem_zipIdx_iff_getElem?.mp (List.mem_of_mem_drop (List.mem_of_mem_take he))

/-- The nodes of a range are behind its start. -/
theorem Sequence.le_of_range {s : Sequence H} {first stop : Nat} {e : SequenceEntry H × Nat}
    (he : e ∈ (s.nodes.zipIdx.drop first).take (stop - first)) : first ≤ e.2 := by
  obtain ⟨i, hi, rfl⟩ := List.mem_iff_getElem.mp (List.mem_of_mem_take he)
  simp

/-- The job leaves confined tasks if it is given such. -/
theorem Job.Returns.left {Q : Sequence H → Prop} (hQ : NestingClosed Q) {j : Job H}
    (h : j.Returns) (hg : j.errand.Given Q) : j.Left Q := by
  induction h with
  -- polls and work
  | pollPending _ ih | pollDone _ ih =>
      exact Task.confined_iff.mpr (ih (Task.confined_iff.mp hg))
  | untilTime | untilFrame | untilParameter => exact hg
  | hosted _ => exact ⟨by simp [Work.sources], by simp [Work.tasks]⟩
  | block _ ih =>
      have hl := ih (Block.given_join hg _)
      exact ⟨by simp [Work.sources], fun t ht => hl t (by simpa [Work.tasks] using ht)⟩
  | nested _ ih => exact ih hg
  -- joins, their forks and their branches
  | joinPolled _ ih => exact ih hg
  | joinStarted _ ih =>
      exact ih ⟨hg, fun e he => List.mem_of_getElem? (Sequence.getElem?_of_range he), by simp⟩
  | forkEnd => exact hg.2.2
  | forkStopped _ _ => exact hg.2.2
  | forkPast _ _ ih => exact ih ⟨hg.1, fun e he => hg.2.1 e (List.mem_cons_of_mem _ he), hg.2.2⟩
  | forkNext _ _ _ _ ihv ihf =>
      obtain ⟨hseq, hrange, hj⟩ := hg
      have hl := ihv ⟨hseq, hrange _ List.mem_cons_self⟩
      exact ihf ⟨hseq, fun e he => hrange e (List.mem_cons_of_mem _ he), Join.forall_count hj hl⟩
  | visitFinished _ => simp [Left, Outcome.tasks]
  | visitDone _ _ _ => simp [Left, Outcome.tasks]
  | visitPending heq _ ih =>
      exact List.forall_mem_singleton.mpr (ih (Context.confined_invoke hQ hg.1 hg.2 heq))
  | branchesEnd => exact hg
  | branchesDone _ _ _ ih' => exact ih' fun t ht => hg t (List.mem_cons_of_mem _ ht)
  | branchesPending _ _ ih ih' =>
      exact List.forall_mem_cons.mpr
        ⟨ih (hg _ List.mem_cons_self), ih' fun t ht => hg t (List.mem_cons_of_mem _ ht)⟩
  -- runs and passes
  | walkStopped _ => simp [Left]
  | walkEnd _ _ => simp [Left]
  | walkNext _ _ _ _ _ ih' => exact ih' hg
  | walkPending _ hnext _ ih =>
      have hl := ih ⟨hg, List.mem_of_getElem? (Context.nextNode?_eq_some.mp hnext).2⟩
      exact fun t ht => hl t (by simpa [Outcome.tasks, eq_comm] using ht)
  | resumeWalk _ ih => exact ih hg.1
  | resumeDone _ _ _ ih' => exact ih' hg.1
  | resumePending _ ih =>
      have hl := ih (hg.2 _ rfl)
      rintro t ⟨⟩
      exact hl
  | stepSequential _ ih =>
      have hl := ih (Run.given_resume hg _)
      exact ⟨by simpa [Run.sources] using hg.1, fun t ht => hl t (by simpa [Run.tasks] using ht)⟩
  | stepParallel _ ih =>
      have hl := ih (Run.given_join hg _ _ _)
      exact ⟨by simp [Run.sources], fun t ht => hl t (by simpa [Run.tasks] using ht)⟩
  | passesPending hcur _ ih =>
      obtain ⟨hseq, hrun⟩ := Passes.confined_current hg hcur
      have hl := ih hrun
      refine ⟨?_, fun t ht => hl.2 t (by simpa [Work.tasks] using ht)⟩
      simpa [Work.sources] using ⟨hseq, hl.1⟩
  | passesFinished hcur _ _ _ | passesYield hcur _ _ _ =>
      exact Passes.confined_completePass (Passes.confined_current hg hcur).1 _
  | passesAgain hcur _ _ _ _ ih' =>
      exact ih' (Passes.confined_completePass (Passes.confined_current hg hcur).1 _)

namespace Errand

/-- What is given on the way is confined if what was given first is. -/
theorem Calls.given {Q : Sequence H → Prop} (hQ : NestingClosed Q) {a b : Errand H}
    (h : a.Calls b) (hg : a.Given Q) : b.Given Q := by
  cases h with
  | work => exact Task.confined_iff.mp hg
  | block => exact Block.given_join hg _
  | nested => exact hg
  | branches => exact hg
  | fork => exact ⟨hg, fun e he => List.mem_of_getElem? (Sequence.getElem?_of_range he), by simp⟩
  | forkPast _ => exact ⟨hg.1, fun e he => hg.2.1 e (List.mem_cons_of_mem _ he), hg.2.2⟩
  | forkVisit _ _ => exact ⟨hg.1, hg.2.1 _ List.mem_cons_self⟩
  | forkNext _ _ hvisit =>
      obtain ⟨hseq, hrange, hj⟩ := hg
      have hl := hvisit.left hQ ⟨hseq, hrange _ List.mem_cons_self⟩
      exact ⟨hseq, fun e he => hrange e (List.mem_cons_of_mem _ he), Join.forall_count hj hl⟩
  | firstPoll heq => exact Context.confined_invoke hQ hg.1 hg.2 heq
  | branchPoll => exact hg _ List.mem_cons_self
  | branchesDone _ | branchesPending _ => exact fun t ht => hg t (List.mem_cons_of_mem _ ht)
  | walkVisit _ hnext => exact ⟨hg, List.mem_of_getElem? (Context.nextNode?_eq_some.mp hnext).2⟩
  | walkNext _ _ _ => exact hg
  | resumeWalk => exact hg.1
  | resumePoll => exact hg.2 _ rfl
  | resumeNext _ => exact hg.1
  | sequential => exact Run.given_resume hg _
  | parallel => exact Run.given_join hg _ _ _
  | pass hcur => exact (Passes.confined_current hg hcur).2
  | nextPass hcur _ _ => exact Passes.confined_completePass (Passes.confined_current hg hcur).1 _

theorem Leads.given {Q : Sequence H → Prop} (hQ : NestingClosed Q) {a b : Errand H}
    (h : a.Leads b) (hg : a.Given Q) : b.Given Q := by
  induction h with
  | refl => exact hg
  | tail _ hcall ih => exact hcall.given hQ ih

end Errand

/-- **Scope.** Each job is a stretch of its step. Given confined tasks it invokes nodes of the
confining sequences only, and leaves confined tasks. -/
theorem Job.Returns.stretch {Q : Sequence H → Prop} (hQ : NestingClosed Q) {j : Job H}
    (h : j.Returns) :
    ∃ is, j.before.Stretch is j.after ∧
      (j.errand.Given Q → j.Left Q ∧ ∀ i ∈ is, Q i.sequence) := by
  obtain ⟨is, hs, hcomes⟩ := h.covers
  refine ⟨is, hs, fun hg => ⟨h.left hQ hg, fun i hi => ?_⟩⟩
  obtain ⟨cx, hleads, -⟩ := hcomes i hi
  exact (hleads.given hQ hg).1

end Sequencer
