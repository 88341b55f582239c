import Sequencer.Proofs.Pass.Fork
import Sequencer.Proofs.Playback.Whereabouts

/-!
# Sequencer.Proofs.Playback.Termination

Steps that come to an end.

A tree of sequences is forward-only under some bindings if no node in it moves the cursor back,
apart from blocks, which move it to their own last node (`Reached.ForwardOnly`). In such a tree
everything that the scheduler does comes to an end:

* the visit of a node, since a block starts only nodes behind its own, and a node that nests a
  sequence runs a smaller tree (`Reached.ForwardOnly.visits`);
* a fork, which has one visit for each node of its range at most;
* a walk, since a node that is done leaves the cursor at its own place or behind it (`done_visit`);
* the passes of a nested sequence, since a loop without end yields after a pass that was not
  suspended, and otherwise the passes are counted (`Passes.remaining_lt`);
* the poll of a task that was suspended before, by induction on the tasks that it owns.
-/

namespace Sequencer

open Relation

variable {H : Host}

/-! ### Forward-only trees -/

/-- A block, or a node that never moves the cursor back. -/
def Node.Onward (b : Bindings) (o : Occurrence) (node : SequenceNode H) : Prop :=
  (∃ count, node = .parallelNext count) ∨ node.Steady b o

/-- An occurrence whose nodes are onward, and whose positions are within the range of indices. -/
structure Reached.Onward (b : Bindings) (r : Reached H) : Prop where
  inRange : (r.sequence.length : Int) ≤ Cursor.highest
  nodes : ∀ entry ∈ r.sequence.nodes, entry.node.Onward b r.key

/-- The occurrence is onward, and so is everything that is nested below. -/
def Reached.ForwardOnly (b : Bindings) (r : Reached H) : Prop :=
  ∀ q, ReflTransGen Reached.Nests r q → q.Onward b

/-- The same of a root sequence. -/
def Sequence.ForwardOnly (b : Bindings) (root : Sequence H) : Prop :=
  (⟨root, .root⟩ : Reached H).ForwardOnly b

namespace Reached.ForwardOnly

variable {b : Bindings} {r q : Reached H}

theorem onward (h : r.ForwardOnly b) : r.Onward b := h r .refl

theorem nested (h : r.ForwardOnly b) (hq : r.Nests q) : q.ForwardOnly b :=
  fun s hs => h s (.head hq hs)

end Reached.ForwardOnly

/-! ### Where a visit leaves the cursor -/

/-- A block whose poll is done has moved the cursor to its last node. -/
theorem Job.Returns.done_block {ticket : Nat} {block : Block H (Task H)} {task : Task H}
    {cx cx' : Context H}
    (h : (Job.poll ⟨ticket, false, .block block⟩ cx .done task cx').Returns) :
    ∃ cursor : Cursor, cx'.cursor = cursor.set (block.stop - 1) := by
  obtain ⟨work, cx₁, hwork, -, rfl⟩ := h.poll_inv
  obtain ⟨join, cx₂, -, hdone, -, rfl⟩ := hwork.block_inv
  refine ⟨cx₂.cursor, ?_⟩
  rw [Progress.doneIf_eq_done.mp hdone.symm]
  rfl

/-- A node that is done at once leaves the cursor at its own place, or behind it. A block does so
too: it ends at its last node. -/
theorem Reached.Onward.done_visit {b : Bindings} {r : Reached H} (h : r.Onward b) {p : Nat}
    {entry : SequenceEntry H} (hentry : r.sequence.nodes[p]? = some entry) {parallel : Bool}
    {cx cx' : Context H} (hb : cx.playback.bindings = b) (hcursor : cx.cursor.index = p)
    (hvisit : (Job.visit r.sequence r.nested p entry parallel cx .done cx').Returns) :
    (p : Int) ≤ cx'.cursor.index := by
  have hp : p < r.sequence.length := (List.getElem?_eq_some_iff.mp hentry).1
  have hmax := h.inRange
  rcases h.nodes entry (List.mem_of_getElem? hentry) with ⟨count, hnode⟩ | hsteady
  · cases hvisit with
    | visitFinished heq =>
        rcases Context.invoke_block_cases hnode hcursor heq with ⟨-, hstays⟩ | ⟨stop, -, -, ⟨⟩⟩
        rw [hstays]
        exact Int.le_of_eq hcursor.symm
    | visitDone heq hpoll =>
        rcases Context.invoke_block_cases hnode hcursor heq with ⟨⟨⟩, -⟩ | ⟨stop, hlt, hle, ⟨⟩⟩
        -- the last node of the block is at `stop - 1`, which is behind `p`
        obtain ⟨cursor, hlast⟩ := hpoll.done_block
        have hindex := cursor.set_index (i := stop - 1) (by omega)
        rw [Context.release_cursor, hlast, hindex]
        omega
  · obtain ⟨hforward, -⟩ := visit_steady (hb ▸ hsteady) (by omega) (by omega) hvisit
    omega

/-! ### Loops that come to an end -/

/-- Under these bindings each poll of the task comes to an end. -/
def Task.PollEnds (b : Bindings) (task : Task H) : Prop :=
  ∀ cx : Context H, cx.playback.bindings = b → (Errand.poll task cx).Ends

/-- Under these bindings each step of the run comes to an end. -/
def Run.StepEnds (b : Bindings) (run : SequenceRun H) : Prop :=
  ∀ pb : Playback H, pb.bindings = b → (Errand.step run pb).Ends

/-- Under these bindings each visit of the node at position `p` comes to an end. -/
def Reached.VisitEnds (b : Bindings) (r : Reached H) (p : Nat) : Prop :=
  ∀ (entry : SequenceEntry H) (parallel : Bool) (cx : Context H),
    r.sequence.nodes[p]? = some entry → cx.playback.bindings = b → cx.cursor.index = p →
    (Errand.visit r.sequence r.nested p entry parallel cx).Ends

section Loops

variable {b : Bindings} {r : Reached H}

open Errand (ends_of_calls)

theorem Task.pollEnds_of_work {task : Task H}
    (h : ∀ cx : Context H, cx.playback.bindings = b → (Errand.work task.ticket task.work cx).Ends) :
    task.PollEnds b := by
  intro cx hb
  refine ends_of_calls fun a hcall => ?_
  cases hcall with
  | work => exact h _ hb

/-- A fork comes to an end if the visits of its nodes do, since no node is visited twice. -/
theorem Reached.Onward.fork (h : r.Onward b) {range : List (SequenceEntry H × Nat)}
    (hrange : ∀ e ∈ range, r.sequence.nodes[e.2]? = some e.1 ∧ r.VisitEnds b e.2) (next : Nat)
    (join : Join (Task H)) {cx : Context H} (hb : cx.playback.bindings = b) :
    (Errand.fork r.sequence r.nested range next join cx).Ends := by
  induction range generalizing next join cx with
  | nil => exact ends_of_calls fun a hcall => by cases hcall
  | cons e rest ih =>
      obtain ⟨⟨hentry, hvisit⟩, hrest⟩ := List.forall_mem_cons.mp hrange
      refine ends_of_calls fun a hcall => ?_
      cases hcall with
      | forkPast _ => exact ih hrest _ _ hb
      | forkVisit _ _ =>
          have hp := (List.getElem?_eq_some_iff.mp hentry).1
          have hmax := h.inRange
          refine hvisit _ _ _ hentry hb (cx.cursor.set_index ?_)
          exact Int.le_trans (Int.ofNat_le.mpr (Nat.le_of_lt hp)) hmax
      | forkNext _ _ hreturns => exact ih hrest _ _ (hreturns.bindings.trans hb)

/-- A walk comes to an end if the visits of the nodes do: each is of a node behind the one before.
-/
theorem Reached.Onward.walk (h : r.Onward b) (hvisits : ∀ p, r.VisitEnds b p) {cx : Context H}
    (hb : cx.playback.bindings = b) : (Errand.walk r.sequence r.nested cx).Ends := by
  induction hn : (r.sequence.length - cx.cursor.index).toNat using Nat.strongRecOn
    generalizing cx with
  | ind n ih =>
      refine ends_of_calls fun a hcall => ?_
      cases hcall with
      | walkVisit _ hnext =>
          obtain ⟨hcursor, hentry⟩ := Context.nextNode?_eq_some.mp hnext
          exact hvisits _ _ _ _ hentry hb hcursor
      | @walkNext _ _ _ p _ cx₁ _ hnext hreturns =>
          obtain ⟨hcursor, hentry⟩ := Context.nextNode?_eq_some.mp hnext
          have hp : p < r.sequence.length := (List.getElem?_eq_some_iff.mp hentry).1
          have hmax := h.inRange
          -- the cursor is the measure: the visit leaves it at `p` at least, then the walk moves it
          have hleft := h.done_visit hentry hb hcursor hreturns
          have hfurther : (p + 1 : Int) ≤ (cx₁.advance 1).cursor.index :=
            Cursor.le_advance_one (by omega) (by omega) (by omega)
          exact ih _ (by omega) (hreturns.bindings.trans hb) rfl

theorem branches_end {tasks : List (Task H)} (h : ∀ t ∈ tasks, t.PollEnds b) {cx : Context H}
    (hb : cx.playback.bindings = b) : (Errand.branches tasks cx).Ends := by
  induction tasks generalizing cx with
  | nil => exact ends_of_calls fun a hcall => by cases hcall
  | cons task rest ih =>
      obtain ⟨htask, hrest⟩ := List.forall_mem_cons.mp h
      refine ends_of_calls fun a hcall => ?_
      cases hcall with
      | branchPoll => exact htask cx hb
      | branchesDone hreturns =>
          exact ih hrest ((Context.release_bindings _ _).trans (hreturns.bindings.trans hb))
      | branchesPending hreturns => exact ih hrest (hreturns.bindings.trans hb)

/-- A join over nodes of `r`, started or not. -/
theorem Reached.Onward.join (h : r.Onward b) {first : Nat}
    (hvisits : ∀ p, first ≤ p → r.VisitEnds b p) (stop : Nat) {join : Option (Join (Task H))}
    (hjoin : ∀ j ∈ join, ∀ t ∈ j.branches, t.PollEnds b) {cx : Context H}
    (hb : cx.playback.bindings = b) :
    (Errand.join r.sequence r.nested first stop join cx).Ends := by
  refine ends_of_calls fun a hcall => ?_
  cases hcall with
  | branches => exact branches_end (hjoin _ rfl) hb
  | fork =>
      refine h.fork (fun e he => ⟨Sequence.getElem?_of_range he, hvisits e.2 ?_⟩) _ _ hb
      exact Sequence.le_of_range he

/-- A step of a pass over `r`, which may own tasks. -/
theorem Reached.Onward.step (h : r.Onward b) (hvisits : ∀ p, r.VisitEnds b p)
    {run : SequenceRun H} (hplace : run.place = r) (htasks : ∀ t ∈ run.tasks, t.PollEnds b) :
    run.StepEnds b := by
  subst hplace
  intro pb hb
  refine ends_of_calls fun a hcall => ?_
  cases hcall with
  | @sequential s nested cursor current _ =>
      refine ends_of_calls fun a hcall => ?_
      cases hcall with
      | resumeWalk => exact h.walk hvisits hb
      | resumePoll => exact htasks _ (by simp [Run.tasks]) _ hb
      | resumeNext hreturns =>
          exact h.walk hvisits ((Context.release_bindings _ _).trans (hreturns.bindings.trans hb))
  | @parallel s nested cursor join _ =>
      refine h.join (fun p _ => hvisits p) _ ?_ hb
      rintro j ⟨⟩ t ht
      exact htasks t (by simpa [Run.tasks] using ht)

/-- How many passes are counted still; none of them in a loop without end. -/
def Passes.remaining (p : Passes H (Task H)) : Nat :=
  match p.loops with
  | .times count _ => count - p.completed
  | .forever => 0

/-- If a pass was not suspended and the next one starts at once, then it is a counted one. -/
theorem Passes.remaining_lt {p : Passes H (Task H)}
    (h : Passes.continuation p.loops (p.completePass false).completed false = .again) :
    (p.completePass false).remaining < p.remaining := by
  have hcompleted : (p.completePass false).completed = min (p.completed + 1) maxCompleted := rfl
  have hsame : (p.completePass false).loops = p.loops := rfl
  cases hloops : p.loops with
  | times count inRange =>
      simp only [remaining, hsame, hloops]
      by_cases hle : count ≤ (p.completePass false).completed
      · rw [hloops, continuation, if_pos hle] at h
        cases h
      · rw [maxCompleted] at hcompleted
        omega
  | forever =>
      rw [hloops] at h
      cases h

/-- Passes of which none is under way come to an end if the steps of a new one do. -/
theorem fresh_passes {p : Passes H (Task H)} (hrun : p.run = none)
    (hnew : (Run.new p.sequence p.identity : SequenceRun H).StepEnds b) (ticket : Nat)
    {pb : Playback H} (hb : pb.bindings = b) : (Errand.passes ticket p pb).Ends := by
  induction hn : p.remaining using Nat.strongRecOn generalizing p pb with
  | ind n ih =>
      refine ends_of_calls fun a hcall => ?_
      cases hcall with
      | pass hcurrent =>
          rw [Passes.current, hrun] at hcurrent
          cases hcurrent
          exact hnew _ hb
      | nextPass hcurrent hreturns hagain =>
          -- the pass began just now, so that no earlier poll had suspended it
          rw [Passes.current, hrun] at hcurrent
          cases hcurrent
          have hbetween : (p.completePass false).run = none := rfl
          exact ih _ (Nat.lt_of_lt_of_eq (Passes.remaining_lt hagain) hn) hbetween hnew
            ((p.closePass_bindings ..).trans (hreturns.bindings.trans hb)) rfl

/-- Passes come to an end if the steps of the current one and of a new one do. -/
theorem passes_end {p : Passes H (Task H)} (hrun : ∀ run ∈ p.run, run.StepEnds b)
    (hnew : (Run.new p.sequence p.identity : SequenceRun H).StepEnds b) (ticket : Nat)
    {pb : Playback H} (hb : pb.bindings = b) : (Errand.passes ticket p pb).Ends := by
  refine ends_of_calls fun a hcall => ?_
  cases hcall with
  | pass hcurrent =>
      unfold Passes.current at hcurrent
      split at hcurrent
      · rename_i run hsome
        cases hcurrent
        exact hrun _ hsome _ hb
      · cases hcurrent
        exact hnew _ hb
  | @nextPass _ _ _ _ _ _ _ suspended hcurrent hreturns _ =>
      -- after a pass that was suspended before, even a loop without end starts the next one at once
      have hbindings := (Passes.stretch_current hcurrent).bindings
      have hbetween : (p.completePass suspended).run = none := rfl
      exact fresh_passes hbetween hnew ticket
        ((p.closePass_bindings ..).trans (hreturns.bindings.trans (hbindings.trans hb)))

end Loops

/-! ### Nodes and tasks -/

section Nodes

variable {b : Bindings} {r : Reached H}

open Errand (ends_of_calls)

/-- A block of nodes of `r` comes to an end if those in it and behind it do. -/
theorem Reached.Onward.block (h : r.Onward b) {block : Block H (Task H)} (hplace : block.place = r)
    (hvisits : ∀ p, block.first ≤ p → r.VisitEnds b p)
    (hjoin : ∀ j ∈ block.join, ∀ t ∈ j.branches, t.PollEnds b) (ticket : Nat) {cx : Context H}
    (hb : cx.playback.bindings = b) : (Errand.work ticket (.block block) cx).Ends := by
  subst hplace
  refine ends_of_calls fun a hcall => ?_
  cases hcall with
  | block => exact h.join hvisits _ hjoin hb

/-- The passes over an onward occurrence whose visits come to an end. -/
theorem Reached.Onward.passes (h : r.Onward b) (hvisits : ∀ p, r.VisitEnds b p)
    {p : Passes H (Task H)} (hplace : p.place = r)
    (hrun : ∀ run ∈ p.run, run.place = r ∧ ∀ t ∈ run.tasks, t.PollEnds b) (ticket : Nat)
    {cx : Context H} (hb : cx.playback.bindings = b) :
    (Errand.work ticket (.passes p) cx).Ends := by
  subst hplace
  have hnew : (Run.new p.sequence p.identity : SequenceRun H).StepEnds b :=
    h.step hvisits rfl (by simp [Run.tasks_new])
  refine ends_of_calls fun a hcall => ?_
  cases hcall with
  | nested =>
      refine passes_end (fun run hmem => ?_) hnew ticket hb
      obtain ⟨hplace, htasks⟩ := hrun run hmem
      exact h.step hvisits hplace htasks

/-- Work that owns no tasks is not held up. -/
theorem plain_ends {work : Work H (Task H)} (hplain : work.IsPlain) (ticket : Nat)
    (cx : Context H) : (Errand.work ticket work cx).Ends := by
  refine ends_of_calls fun a hcall => ?_
  cases hcall with
  | block | nested => exact hplain.elim

/-- The visit of a block forks over the nodes behind it. -/
theorem Reached.Onward.visit_block (h : r.Onward b) {p count : Nat}
    (hlater : ∀ q, p + 1 ≤ q → r.VisitEnds b q) {entry : SequenceEntry H}
    (hnode : entry.node = .parallelNext count) (parallel : Bool) {cx : Context H}
    (hb : cx.playback.bindings = b) (hcursor : cx.cursor.index = p) :
    (Errand.visit r.sequence r.nested p entry parallel cx).Ends := by
  refine ends_of_calls fun a hcall => ?_
  cases hcall with
  | firstPoll hinvoke =>
      have hbindings := (Context.stretch_invoke hinvoke).bindings.trans hb
      rcases Context.invoke_block_cases hnode hcursor hinvoke with ⟨⟨⟩, -⟩ | ⟨stop, -, -, ⟨⟩⟩
      refine Task.pollEnds_of_work (fun cx hb => ?_) _ hbindings
      exact h.block rfl hlater (by simp) _ hb

/-- The visits of an onward occurrence come to an end if those of the nested occurrences do. -/
theorem Reached.Onward.visits (h : r.Onward b)
    (hnested : ∀ q, r.Nests q → q.Onward b ∧ ∀ p, q.VisitEnds b p) (p : Nat) :
    r.VisitEnds b p := by
  induction hn : r.sequence.length - p using Nat.strongRecOn generalizing p with
  | ind n ih =>
      intro entry parallel cx hentry hb hcursor
      have hp : p < r.sequence.length := (List.getElem?_eq_some_iff.mp hentry).1
      -- blocks start nodes behind their own, whatever the extents of other blocks are
      have hlater : ∀ q, p + 1 ≤ q → r.VisitEnds b q := fun q hq => ih _ (by omega) q rfl
      by_cases hblock : ∃ count, entry.node = .parallelNext count
      · obtain ⟨count, hnode⟩ := hblock
        exact h.visit_block hlater hnode parallel hb hcursor
      refine ends_of_calls fun a hcall => ?_
      cases hcall with
      | @firstPoll _ _ _ _ _ task cx₁ _ hinvoke =>
          have hbindings := (Context.stretch_invoke hinvoke).bindings.trans hb
          obtain ⟨work, cx₂, hstart, rfl, rfl⟩ := Context.invoke_some hinvoke
          rcases Node.start_cases hstart with ⟨count, first, stop, hnode, rfl⟩ |
            ⟨inner, identity, loops, hnode, rfl⟩ | hplain
          · exact absurd ⟨count, hnode⟩ hblock
          · refine Task.pollEnds_of_work (fun cx hb => ?_) _ hbindings
            obtain ⟨hinner, hvisits⟩ := hnested ⟨inner, identity⟩
              (Sequence.mem_nestedSequences (List.mem_of_getElem? hentry) hnode)
            exact hinner.passes hvisits rfl (by simp) _ hb
          · exact Task.pollEnds_of_work (fun cx _ => plain_ends hplain _ cx) _ hbindings

/-- **Visits end.** Below each occurrence of a forward-only tree the tree is smaller. -/
theorem Reached.ForwardOnly.visits (h : r.ForwardOnly b) (p : Nat) : r.VisitEnds b p := by
  obtain ⟨s, nested⟩ := r
  induction s using Sequence.nestingInduction generalizing nested p with
  | h s ih =>
      refine h.onward.visits (fun q hq => ?_) p
      exact ⟨(h.nested hq).onward, fun p => ih _ _ hq p q.nested (h.nested hq)⟩

/-- **Polls end.** A task of a forward-only tree may have been suspended for long; what it owns are
tasks of the same tree. -/
theorem Task.Belongs.pollEnds {task : Task H} (htask : task.Belongs r) (h : r.ForwardOnly b) :
    task.PollEnds b := by
  induction htask with
  | @intro r task hfits _ ih =>
      refine pollEnds_of_work fun cx hb => ?_
      cases hwork : task.work with
      | block block =>
          rw [hwork] at hfits ih
          refine h.onward.block hfits (fun p _ => h.visits p) (fun j hj t ht => ?_) _ hb
          exact ih t (by simp [Work.tasks, Option.mem_def.mp hj, ht]) h
      | passes p =>
          rw [hwork] at hfits ih
          obtain ⟨hnests, hplace⟩ := hfits
          have hp := h.nested hnests
          refine hp.onward.passes hp.visits rfl (fun run hrun => ⟨hplace run hrun, fun t ht => ?_⟩)
            _ hb
          exact ih t (by simp [Work.tasks, Option.mem_def.mp hrun, ht]) hp
      | untilTime | untilFrame | untilParameter | hosted =>
          refine plain_ends ?_ _ _
          trivial

/-- **Steps end.** The step of a run of a forward-only tree, whatever is suspended in it. -/
theorem Run.Belongs.stepEnds {run : SequenceRun H} (hrun : run.Belongs r) (h : r.ForwardOnly b) :
    run.StepEnds b :=
  h.onward.step h.visits hrun.1 fun t ht => (hrun.2 t ht).pollEnds h

end Nodes

end Sequencer
