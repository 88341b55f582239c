import Mathlib.Data.List.Perm.Basic
import Sequencer.Proofs.Playback.Scope

/-!
# Sequencer.Proofs.Playback.Rounds

What becomes of the tasks in a step. Tasks live in four places: with a run that waits for its node,
among the branches of a join, in the pass of a nested sequence and in a block. Whoever owns a task
polls it once, and keeps it until it is done.

`Playback.Round` says so of the history, by the tickets: the given tasks and those that are launched
are polled once each, and are either left or done. Rounds follow one another (`Round.trans`). That a
job which is done leaves no task rests on the counts of the joins (`Join.Balanced`).
`Job.Rounds` says so of a job, and `Job.Returns.round` is the one induction on the rules for it.
-/

namespace Sequencer

variable {H : Host}

/-! ### Tickets in the history -/

namespace Event

/-- Is this the first event of a run? -/
def opensRun : Event H → Bool
  | noticed n => n.opensRun
  | _ => false

/-- Does the event tell neither of a task nor of the beginning or the end of a run? -/
def isQuiet : Event H → Bool
  | launched _ | polled _ | completed _ | abandoned _ | finished | stopped _ => false
  | noticed n => !n.opensRun
  | _ => true

theorem isQuiet_of_isAside {e : Event H} (h : e.isAside = true) : e.isQuiet = true := by
  cases e <;> simp_all [isAside, isQuiet]

theorem of_isQuiet {e : Event H} (h : e.isQuiet = true) :
    e.launched? = none ∧ e.polled? = none ∧ e.completed? = none ∧ e.abandoned? = none ∧
      e.opensRun = false ∧ e.isSignal = false := by
  cases e <;>
    simp_all [isQuiet, launched?, polled?, completed?, abandoned?, opensRun, isSignal]

end Event

/-- A task that is done was polled before. -/
def PolledFirst (events : List (Event H)) : Prop :=
  ∀ older, older <:+ events → older.filterMap Event.completed? ⊆ older.filterMap Event.polled?

namespace PolledFirst

variable {events events' : List (Event H)}

theorem nil : PolledFirst (H := H) [] := by simp [PolledFirst]

theorem append (h : PolledFirst events) (h' : PolledFirst events') :
    PolledFirst (events' ++ events) := by
  rintro older ⟨front, heq⟩
  rcases List.append_eq_append_iff.mp heq with ⟨newer, rfl, rfl⟩ | ⟨between, rfl, rfl⟩
  · rw [List.filterMap_append, List.filterMap_append]
    exact List.append_subset.mpr
      ⟨List.subset_append_of_subset_left _ (h' newer ⟨front, rfl⟩),
        List.subset_append_of_subset_right _ (h events List.suffix_rfl)⟩
  · exact h older ⟨between, rfl⟩

theorem cons (h : PolledFirst events) {e : Event H}
    (he : ∀ ticket, e.completed? = some ticket → ticket ∈ events.filterMap Event.polled?) :
    PolledFirst (e :: events) := by
  intro older holder
  rcases List.suffix_cons_iff.mp holder with rfl | hsuffix
  · intro ticket hticket
    have hpolled : ticket ∈ events.filterMap Event.polled? := by
      rcases List.mem_filterMap.mp hticket with ⟨e', he', heq⟩
      rcases List.mem_cons.mp he' with rfl | hmem
      · exact he ticket heq
      · exact h events List.suffix_rfl (List.mem_filterMap.mpr ⟨e', hmem, heq⟩)
    obtain ⟨e', he', heq⟩ := List.mem_filterMap.mp hpolled
    exact List.mem_filterMap.mpr ⟨e', List.mem_cons_of_mem _ he', heq⟩
  · exact h older hsuffix

theorem single {e : Event H} (he : e.completed? = none) : PolledFirst [e] :=
  nil.cons fun ticket hticket => by simp [he] at hticket

end PolledFirst

/-- What events, newest first, tell of the tasks. Tickets are handed out from `first` on, `count` of
them. -/
structure Accounts (first count : Nat) (given left : List Nat) (events : List (Event H)) :
    Prop where
  launched : events.filterMap Event.launched? = (List.range' first count).reverse
  polled : (events.filterMap Event.polled?).Perm (given ++ List.range' first count)
  kept : (events.filterMap Event.completed? ++ left).Perm (given ++ List.range' first count)
  abandoned : events.filterMap Event.abandoned? = []
  order : PolledFirst events
  inner : ∀ e ∈ events, e.opensRun = false ∧ e.isSignal = false

/-- From `a` to `b` the `given` tasks and those that are launched have their turn. -/
def Playback.Round (given left : List Nat) (a b : Playback H) : Prop :=
  ∃ count events, b.history = events ++ a.history ∧ b.nextTicket = a.nextTicket + count ∧
    Accounts a.nextTicket count given left events

namespace Accounts

variable {first count count' : Nat} {given given' left left' : List Nat}
  {events events' : List (Event H)}

/-- Turns that follow one another. Those that are taken first come last in the history. -/
theorem turns_append {taken taken' : List Nat}
    (h : (taken ++ left).Perm (given ++ List.range' first count))
    (h' : (taken' ++ left').Perm (given' ++ List.range' (first + count) count')) :
    ((taken' ++ taken) ++ (left ++ left')).Perm
      ((given ++ given') ++ List.range' first (count + count')) := by
  have hcount := List.perm_iff_count.mp h
  have hcount' := List.perm_iff_count.mp h'
  rw [List.perm_iff_count]
  intro ticket
  have := hcount ticket
  have := hcount' ticket
  simp only [List.count_append, ← List.range'_append_1] at *
  omega

theorem nil (first : Nat) : Accounts (H := H) first 0 [] [] [] :=
  ⟨rfl, .nil, .nil, rfl, .nil, by simp⟩

theorem append (h : Accounts first count given left events)
    (h' : Accounts (first + count) count' given' left' events') :
    Accounts first (count + count') (given ++ given') (left ++ left') (events' ++ events) where
  launched := by
    rw [List.filterMap_append, h'.launched, h.launched, ← List.reverse_append,
      List.range'_append_1]
  polled := by
    have hpolled := h.polled
    have hpolled' := h'.polled
    rw [← List.append_nil (events.filterMap Event.polled?)] at hpolled
    rw [← List.append_nil (events'.filterMap Event.polled?)] at hpolled'
    have hturns := turns_append hpolled hpolled'
    rwa [List.append_nil, List.append_nil, ← List.filterMap_append] at hturns
  kept := by
    rw [List.filterMap_append]
    exact turns_append h.kept h'.kept
  abandoned := by rw [List.filterMap_append, h'.abandoned, h.abandoned, List.append_nil]
  order := h.order.append h'.order
  inner := List.forall_mem_append.mpr ⟨h'.inner, h.inner⟩

theorem quiet (first : Nat) {e : Event H} (he : e.isQuiet = true) :
    Accounts first 0 [] [] [e] := by
  obtain ⟨hlaunched, hpolled, hcompleted, habandoned, hinner⟩ := Event.of_isQuiet he
  exact ⟨by simp [hlaunched], by simp [hpolled], by simp [hcompleted], by simp [habandoned],
    .single hcompleted, by simpa using hinner⟩

theorem poll (first ticket : Nat) :
    Accounts (H := H) first 0 [ticket] [ticket] [.polled ticket] :=
  ⟨rfl, .refl _, .refl _, rfl, .single rfl, by simp [Event.opensRun, Event.isSignal]⟩

/-- A task is done of which nothing is left. -/
theorem complete {ticket : Nat} (h : Accounts first count (ticket :: given) [ticket] events) :
    Accounts first count (ticket :: given) [] (.completed ticket :: events) where
  launched := h.launched
  polled := h.polled
  kept := by
    rw [List.append_nil]
    exact (List.perm_append_singleton ticket _).symm.trans h.kept
  abandoned := h.abandoned
  order := h.order.cons <| by
    rintro _ ⟨⟩
    exact h.polled.mem_iff.mpr (by simp)
  inner := List.forall_mem_cons.mpr ⟨⟨rfl, rfl⟩, h.inner⟩

/-- The launch of a task in front of its first poll. -/
theorem launch (h : Accounts (first + 1) count [first] left events) :
    Accounts first (count + 1) [] left (events ++ [.launched first]) where
  launched := by
    rw [List.filterMap_append, h.launched, List.range'_succ, List.reverse_cons]
    rfl
  polled := by
    rw [List.filterMap_append, List.range'_succ]
    exact (List.append_nil _).symm ▸ h.polled
  kept := by
    rw [List.filterMap_append, List.range'_succ]
    exact (List.append_nil (events.filterMap Event.completed?)).symm ▸ h.kept
  abandoned := by
    rw [List.filterMap_append, h.abandoned]
    rfl
  order := .append (.single rfl) h.order
  inner := List.forall_mem_append.mpr ⟨h.inner, by simp [Event.opensRun, Event.isSignal]⟩

end Accounts

namespace Playback.Round

variable {a b c : Playback H} {given given' left left' : List Nat}

theorem refl (a : Playback H) : a.Round [] [] a := ⟨0, [], rfl, rfl, .nil _⟩

theorem trans (h : a.Round given left b) (h' : b.Round given' left' c) :
    a.Round (given ++ given') (left ++ left') c := by
  obtain ⟨count, events, heq, hnext, haccounts⟩ := h
  obtain ⟨count', events', heq', hnext', haccounts'⟩ := h'
  rw [hnext] at haccounts'
  exact ⟨count + count', events' ++ events, by rw [heq', heq, List.append_assoc],
    by rw [hnext', hnext, Nat.add_assoc], haccounts.append haccounts'⟩

/-- Nothing is to be polled any more. -/
theorem andThen (h : a.Round given [] b) (h' : b.Round [] left c) : a.Round given left c := by
  simpa using h.trans h'

theorem before (h : a.Round [] [] b) (h' : b.Round given left c) : a.Round given left c := by
  simpa using h.trans h'

theorem after (h : a.Round given left b) (h' : b.Round [] [] c) : a.Round given left c := by
  simpa using h.trans h'

theorem quiet (a : Playback H) {e : Event H} (he : e.isQuiet = true) :
    a.Round [] [] (a.record e) :=
  ⟨0, [e], rfl, rfl, .quiet _ he⟩

theorem of_acts (h : a.Acts b) : a.Round [] [] b := by
  induction h with
  | refl => exact refl a
  | tail _ hact ih =>
      refine ih.andThen ?_
      cases hact with
      | write parameters => exact ⟨0, [], rfl, rfl, .nil _⟩
      | tell he => exact quiet _ (Event.isQuiet_of_isAside he)
      | askStop => exact ⟨0, [.stopRequested], rfl, rfl, .quiet _ rfl⟩

/-- A task is polled, and stays pending. -/
theorem poll {ticket : Nat} (h : (a.record (.polled ticket)).Round given left b) :
    a.Round (ticket :: given) (ticket :: left) b := by
  have hpoll : a.Round [ticket] [ticket] (a.record (.polled ticket)) :=
    ⟨0, [.polled ticket], rfl, rfl, .poll _ ticket⟩
  exact hpoll.trans h

/-- A task is polled, and is done. -/
theorem complete {ticket : Nat} (h : (a.record (.polled ticket)).Round given [] b) :
    a.Round (ticket :: given) [] (b.record (.completed ticket)) := by
  obtain ⟨count, events, heq, hnext, haccounts⟩ := h.poll
  exact ⟨count, .completed ticket :: events, by rw [record, heq, List.cons_append], hnext,
    haccounts.complete⟩

/-- A task is launched, and has its turn. -/
theorem launch (h : Playback.Round [a.nextTicket] left
      ({ a with nextTicket := a.nextTicket + 1 }.record (.launched a.nextTicket)) b) :
    a.Round [] left b := by
  obtain ⟨count, events, heq, hnext, haccounts⟩ := h
  refine ⟨count + 1, events ++ [.launched a.nextTicket], ?_, ?_, haccounts.launch⟩
  · rw [heq, List.append_assoc]
    rfl
  · rw [hnext]
    simp only [record]
    omega

end Playback.Round

/-! ### Tasks that are under way -/

namespace Join

/-- Every branch that was started is pending or done. -/
def Balanced (j : Join (Task H)) : Prop := j.completed + j.branches.length = j.started

theorem Balanced.count {j : Join (Task H)} (h : j.Balanced) (outcome : Outcome H) :
    (j.count outcome).Balanced := by
  unfold Balanced at *
  cases outcome with
  | done =>
      simp only [Join.count]
      omega
  | pending task =>
      simp only [Join.count, List.length_append, List.length_singleton]
      omega

theorem Balanced.branches_of_isDone {j : Join (Task H)} (h : j.Balanced) (hdone : j.isDone = true) :
    j.branches = [] := by
  have heq : j.completed = j.started := by simpa [isDone] using hdone
  unfold Balanced at h
  exact List.length_eq_zero_iff.mp (by omega)

/-- A join is done if it owns no branch any more. -/
theorem Balanced.isDone_iff {j : Join (Task H)} (h : j.Balanced) :
    j.isDone = true ↔ j.branches = [] := by
  refine ⟨h.branches_of_isDone, fun hnil => ?_⟩
  rw [Balanced, hnil] at h
  simpa [isDone] using h

end Join

/-- The join of a run. -/
def Run.join? : SequenceRun H → Option (Join (Task H))
  | ⟨_, _, _, .parallel join⟩ => join
  | _ => none

/-- The join of a piece of work. -/
def Work.join? : Work H (Task H) → Option (Join (Task H))
  | .block b => b.join
  | .passes p => p.run.bind Run.join?
  | _ => none

/-- A task that is not finished, whose joins are balanced and which owns such tasks. -/
inductive Task.Sound : Task H → Prop
  | intro {task : Task H} :
      task.finished = false → (∀ j ∈ task.work.join?, j.Balanced) →
      (∀ t ∈ task.work.tasks, Sound t) → Sound task

theorem heldByWork_eq (work : Work H (Task H)) : heldByWork work = heldByBranches work.tasks := by
  rcases work with _ | _ | _ | _ | ⟨_, _, _, _, _ | ⟨branches, _, _⟩⟩ |
    ⟨_, _, _, _, _ | ⟨_, _, _, (_ | task) | (_ | ⟨branches, _, _⟩)⟩, _⟩ <;>
    simp [heldByWork, heldByBranches, Work.tasks, Run.tasks]

theorem Run.held_eq (run : SequenceRun H) : run.held = heldByBranches run.tasks := by
  obtain ⟨_, _, _, (_ | task) | (_ | ⟨branches, _, _⟩)⟩ := run <;>
    simp [held, Join.held, heldByBranches, Run.tasks]

/-- The tickets of the unfinished tasks in a list. -/
def tickets (tasks : List (Task H)) : List Nat := (heldByBranches tasks).map Held.ticket

@[simp] theorem tickets_nil : tickets ([] : List (Task H)) = [] := rfl

theorem tickets_cons (task : Task H) (rest : List (Task H)) :
    tickets (task :: rest) = tickets [task] ++ tickets rest := by
  simp [tickets, heldByBranches]

theorem tickets_append (front rest : List (Task H)) :
    tickets (front ++ rest) = tickets front ++ tickets rest := by
  induction front with
  | nil => rfl
  | cons task front ih =>
      rw [List.cons_append, tickets_cons, ih, tickets_cons task front, List.append_assoc]

theorem tickets_of_sound {task : Task H} (h : task.Sound) :
    tickets [task] = task.ticket :: tickets task.work.tasks := by
  obtain ⟨hfinished, -, -⟩ := h
  obtain ⟨ticket, finished, work⟩ := task
  subst hfinished
  simp [tickets, heldByBranches, Task.held, heldByWork_eq]

theorem Run.join?_new (s : Sequence H) (nested : NestedId) :
    (Run.new s nested : SequenceRun H).join? = none := by
  unfold Run.new
  split <;> rfl

/-- The work that a node leaves has no join yet. -/
theorem Node.join?_start {node : SequenceNode H} {s : Sequence H} {nested : NestedId}
    {values : List Value} {cx cx' : Context H} {work : Work H (Task H)}
    (h : node.start s nested values cx = (some work, cx')) : work.join? = none := by
  rcases Node.start_cases h with ⟨_, _, _, -, rfl⟩ | ⟨_, _, _, -, rfl⟩ | hplain
  · rfl
  · rfl
  · cases work with
    | block | passes => exact hplain.elim
    | untilTime | untilFrame | untilParameter | hosted => rfl

/-- The task that a node leaves is sound and owns no other. Before it is launched nothing happens to
any task. -/
theorem Context.round_invoke {cx cx' : Context H} {s : Sequence H} {nested : NestedId}
    {position : Nat} {entry : SequenceEntry H} {parallel : Bool} {task : Task H}
    (h : cx.invoke s nested position entry parallel = (some task, cx')) :
    task.Sound ∧ ∀ {left : List Nat} {pb : Playback H},
      cx'.playback.Round (tickets [task]) left pb → cx.playback.Round [] left pb := by
  obtain ⟨work, cx₁, hstart, rfl, rfl⟩ := invoke_some h
  have htasks : work.tasks = [] := (Node.sources_start hstart).1
  have hsound : (cx₁.launch work).1.Sound := by
    refine .intro rfl ?_ ?_
    · simp [launch, Node.join?_start hstart]
    · simp [launch, htasks]
  refine ⟨hsound, fun hround => ?_⟩
  rw [tickets_of_sound hsound, launch, htasks, tickets_nil] at hround
  have hacts := acts_start
    (cx.record (.invoked (cx.invocation s nested position entry parallel))) entry.node s nested
    (cx.fieldValues entry.node ⟨s.id, nested⟩)
  rw [hstart] at hacts
  exact ((Playback.Round.quiet _ rfl).andThen (.of_acts hacts)).andThen hround.launch

/-- A node that leaves no task does nothing to any task. -/
theorem Context.round_invoke_none {cx cx' : Context H} {s : Sequence H} {nested : NestedId}
    {position : Nat} {entry : SequenceEntry H} {parallel : Bool}
    (h : cx.invoke s nested position entry parallel = (none, cx')) :
    cx.playback.Round [] [] cx'.playback := by
  have hacts := acts_start
    (cx.record (.invoked (cx.invocation s nested position entry parallel))) entry.node s nested
    (cx.fieldValues entry.node ⟨s.id, nested⟩)
  rw [invoke_none h] at hacts
  exact (Playback.Round.quiet _ rfl).andThen (.of_acts hacts)

theorem Passes.round_current {ticket : Nat} {p : Passes H (Task H)} {pb pb' : Playback H}
    {run : SequenceRun H} {suspended : Bool} (h : p.current ticket pb = (run, suspended, pb')) :
    run.tasks = (Work.passes p).tasks ∧ run.join? = (Work.passes p).join? ∧
      pb.Round [] [] pb' := by
  unfold Passes.current at h
  split at h
  · rename_i r hr
    cases h
    exact ⟨by simp [Work.tasks, hr], by simp [Work.join?, hr], .refl _⟩
  · rename_i hr
    cases h
    exact ⟨by simp [Work.tasks, hr, Run.tasks_new], by simp [Work.join?, hr, Run.join?_new],
      .quiet _ rfl⟩

/-- A pass that is done has left no task. -/
theorem Passes.round_closePass {ticket : Nat} {p : Passes H (Task H)} {run : SequenceRun H}
    (hrun : run.tasks = []) (pb : Playback H) : pb.Round [] [] (p.closePass ticket run pb) := by
  unfold Passes.closePass
  rw [Run.held_eq, hrun]
  exact .quiet _ rfl

namespace Job

/-- The tasks that a job is to poll. -/
def given : Job H → List (Task H)
  | .poll task .. => [task]
  | .work _ w .. => w.tasks
  | .join _ _ _ _ j .. => (j.map (·.branches)).getD []
  | .branches tasks .. => tasks
  | .resume _ _ current .. => current.toList
  | .step run .. => run.tasks
  | .passes _ p .. => (Work.passes p).tasks
  | .fork .. | .visit .. | .walk .. => []

/-- The joins that a job goes on with are balanced. -/
def Balanced : Job H → Prop
  | .work _ w .. => ∀ j ∈ w.join?, j.Balanced
  | .join _ _ _ _ j? .. => ∀ j ∈ j?, j.Balanced
  | .fork _ _ _ _ j .. => j.Balanced
  | .step run .. => ∀ j ∈ run.join?, j.Balanced
  | .passes _ p .. => ∀ j ∈ (Work.passes p).join?, j.Balanced
  | .poll .. | .branches .. | .resume .. | .visit .. | .walk .. => True

/-- A job leaves the tasks `left` in its place, and none if it is done. -/
def Leaves (left : List (Task H)) : Job H → Prop
  | .poll _ _ .pending task _ => left = [task]
  | .poll _ _ .done task _ => left = [] ∧ task.held = []
  | .work _ _ _ progress w _ =>
    left = w.tasks ∧ (∀ j ∈ w.join?, j.Balanced) ∧ (progress = .done → left = [])
  | .join _ _ _ _ _ _ j _ => left = j.branches ∧ j.Balanced
  | .fork _ _ _ _ j _ j' _ => j'.branches = j.branches ++ left ∧ j'.Balanced
  | .visit _ _ _ _ _ _ outcome _ => left = outcome.tasks
  | .branches tasks _ pending finished _ =>
    left = pending ∧ finished + pending.length = tasks.length
  | .walk _ _ _ progress current _ | .resume _ _ _ _ progress current _ =>
    left = current.toList ∧ (progress = .done → left = [])
  | .step _ _ progress run _ =>
    left = run.tasks ∧ (∀ j ∈ run.join?, j.Balanced) ∧ (progress = .done → left = [])
  | .passes _ _ _ progress p _ =>
    left = (Work.passes p).tasks ∧ (∀ j ∈ (Work.passes p).join?, j.Balanced) ∧
      (progress = .done → left = [])

/-- **Rounds.** Given sound tasks, each of them and each task that is launched is polled once, and
is done or left, sound, in the place of the job. -/
def Rounds (j : Job H) : Prop :=
  j.Balanced → (∀ t ∈ j.given, t.Sound) →
    ∃ left, j.Leaves left ∧ (∀ t ∈ left, t.Sound) ∧
      j.before.Round (tickets j.given) (tickets left) j.after

namespace Rounds

/-! One lemma for each rule in which something happens to a task besides the parts of the job. -/

variable {s : Sequence H} {nested : NestedId} {cx cx₁ cx₂ cx' : Context H} {task task' : Task H}
  {rest : List (Task H)} {finished : Nat}

theorem pollPending {work' : Work H (Task H)}
    (h : (Job.work task.ticket task.work (cx.record (.polled task.ticket)) .pending work'
      cx').Rounds) :
    (Job.poll task cx .pending { task with finished := false, work := work' } cx').Rounds := by
  intro _ hsound
  have htask : task.Sound := hsound task List.mem_cons_self
  obtain ⟨hfinished, hjoin, howned⟩ := id htask
  obtain ⟨left, ⟨rfl, hbalanced', -⟩, hleft, hround⟩ := h hjoin howned
  have hsound' : Task.Sound { task with finished := false, work := work' } :=
    .intro rfl hbalanced' hleft
  refine ⟨_, rfl, by simpa using hsound', ?_⟩
  rw [given, tickets_of_sound htask, tickets_of_sound hsound']
  exact hround.poll

theorem pollDone {work' : Work H (Task H)}
    (h : (Job.work task.ticket task.work (cx.record (.polled task.ticket)) .done work'
      cx').Rounds) :
    (Job.poll task cx .done { task with finished := true, work := work' }
      (cx'.record (.completed task.ticket))).Rounds := by
  intro _ hsound
  have htask : task.Sound := hsound task List.mem_cons_self
  obtain ⟨hfinished, hjoin, howned⟩ := id htask
  obtain ⟨left, ⟨hwork, -, hdone⟩, -, hround⟩ := h hjoin howned
  obtain rfl := hdone rfl
  -- The work owns no task any more, so with this one nothing is lost.
  refine ⟨[], ⟨rfl, ?_⟩, by simp, ?_⟩
  · simp [Task.held, heldByWork_eq, ← hwork, heldByBranches]
  · rw [given, tickets_of_sound htask]
    exact hround.complete

theorem block {ticket : Nat} {b : Block H (Task H)} {join : Join (Task H)}
    (h : (Job.join b.sequence b.nested b.first b.stop b.join cx join cx').Rounds) :
    (Job.work ticket (.block b) cx (.doneIf join.isDone) (.block { b with join := some join })
      (cx'.moveToIf join.isDone (b.stop - 1))).Rounds := by
  intro hbalanced hsound
  obtain ⟨left, ⟨rfl, hj⟩, hleft, hround⟩ := h hbalanced hsound
  refine ⟨join.branches, ⟨rfl, by simpa [Work.join?] using hj, fun hdone => ?_⟩, hleft, ?_⟩
  · exact hj.branches_of_isDone (Progress.doneIf_eq_done.mp hdone)
  · rw [after, Context.moveToIf_playback]
    exact hround

theorem joinPolled {first stop : Nat} {join : Join (Task H)} {pending : List (Task H)}
    (h : (Job.branches join.branches cx pending finished cx').Rounds) :
    (Job.join s nested first stop (some join) cx (join.update pending finished)
      (cx'.record (.joinPolled (join.completed + finished) join.started))).Rounds := by
  intro hbalanced hsound
  obtain ⟨left, ⟨rfl, hcount⟩, hleft, hround⟩ := h trivial hsound
  have hj : join.Balanced := hbalanced join rfl
  refine ⟨left, ⟨rfl, ?_⟩, hleft, hround.after (.quiet _ rfl)⟩
  unfold Join.Balanced at *
  simp only [Join.update]
  omega

theorem forkNext {entry : SequenceEntry H} {position next : Nat}
    {rest : List (SequenceEntry H × Nat)} {join join' : Join (Task H)} {outcome : Outcome H}
    (hv : (Job.visit s nested position entry true (cx.moveTo position) outcome cx₁).Rounds)
    (hf : (Job.fork s nested rest (cx₁.nextBranch position) (join.count outcome) cx₁ join'
      cx').Rounds) :
    (Job.fork s nested ((entry, position) :: rest) next join cx join' cx').Rounds := by
  intro hbalanced _
  obtain ⟨_, rfl, hleft, hround⟩ := hv trivial (by simp [given])
  obtain ⟨left, ⟨hbranches, hj⟩, hleft', hround'⟩ := hf (Join.Balanced.count hbalanced _)
    (by simp [given])
  refine ⟨outcome.tasks ++ left, ⟨?_, hj⟩, List.forall_mem_append.mpr ⟨hleft, hleft'⟩, ?_⟩
  · rw [hbranches, Join.count_branches, List.append_assoc]
  · rw [tickets_append]
    exact hround.trans hround'

section Visits

variable {entry : SequenceEntry H} {position : Nat} {parallel : Bool}

theorem visitDone (heq : cx.invoke s nested position entry parallel = (some task, cx₁))
    (h : (Job.poll task cx₁ .done task' cx₂).Rounds) :
    (Job.visit s nested position entry parallel cx .done (cx₂.release task')).Rounds := by
  intro _ _
  obtain ⟨htask, hround⟩ := Context.round_invoke heq
  obtain ⟨_, ⟨rfl, hheld⟩, -, hround'⟩ := h trivial (by simpa [given] using htask)
  refine ⟨[], rfl, by simp, hround ?_⟩
  rw [after, Context.release, hheld]
  exact hround'

theorem visitPending (heq : cx.invoke s nested position entry parallel = (some task, cx₁))
    (h : (Job.poll task cx₁ .pending task' cx₂).Rounds) :
    (Job.visit s nested position entry parallel cx (.pending task') cx₂).Rounds := by
  intro _ _
  obtain ⟨htask, hround⟩ := Context.round_invoke heq
  obtain ⟨_, rfl, hleft, hround'⟩ := h trivial (by simpa [given] using htask)
  exact ⟨_, rfl, hleft, hround hround'⟩

end Visits

theorem branchesDone {pending : List (Task H)} (h : (Job.poll task cx .done task' cx₁).Rounds)
    (hrest : (Job.branches rest (cx₁.release task') pending finished cx').Rounds) :
    (Job.branches (task :: rest) cx pending (finished + 1) cx').Rounds := by
  intro _ hsound
  obtain ⟨htask, hothers⟩ := List.forall_mem_cons.mp hsound
  obtain ⟨_, ⟨rfl, hheld⟩, -, hround⟩ := h trivial (by simpa [given] using htask)
  obtain ⟨left, ⟨rfl, hcount⟩, hleft, hround'⟩ := hrest trivial hothers
  refine ⟨left, ⟨rfl, by simp; omega⟩, hleft, ?_⟩
  rw [before, Context.release, hheld] at hround'
  rw [given, tickets_cons]
  exact hround.trans hround'

theorem branchesPending {pending : List (Task H)}
    (h : (Job.poll task cx .pending task' cx₁).Rounds)
    (hrest : (Job.branches rest cx₁ pending finished cx').Rounds) :
    (Job.branches (task :: rest) cx (task' :: pending) finished cx').Rounds := by
  intro _ hsound
  obtain ⟨htask, hothers⟩ := List.forall_mem_cons.mp hsound
  obtain ⟨_, rfl, htask', hround⟩ := h trivial (by simpa [given] using htask)
  obtain ⟨left, ⟨rfl, hcount⟩, hleft, hround'⟩ := hrest trivial hothers
  refine ⟨_ :: left, ⟨rfl, by simp; omega⟩, ?_, ?_⟩
  · exact List.forall_mem_cons.mpr ⟨List.forall_mem_singleton.mp htask', hleft⟩
  · rw [given, tickets_cons, tickets_cons _ left]
    exact hround.trans hround'

theorem resumeDone {progress : Progress} {current : Option (Task H)}
    (h : (Job.poll task cx .done task' cx₁).Rounds)
    (hw : (Job.walk s nested ((cx₁.release task').advance 1) progress current cx').Rounds) :
    (Job.resume s nested (some task) cx progress current cx').Rounds := by
  intro _ hsound
  obtain ⟨_, ⟨rfl, hheld⟩, -, hround⟩ := h trivial hsound
  obtain ⟨left, hleaves, hleft, hround'⟩ := hw trivial (by simp [given])
  refine ⟨left, hleaves, hleft, ?_⟩
  rw [before, Context.advance, Context.release, hheld] at hround'
  exact hround.andThen hround'

section Passes

variable {ticket : Nat} {p p' : Passes H (Task H)} {run run' : SequenceRun H} {suspended : Bool}
  {progress : Progress} {pb pb₁ pb₂ pb' : Playback H}

/-- The round of the current pass, given the tasks of all passes. -/
theorem current (hcurrent : p.current ticket pb = (run, suspended, pb₁))
    (h : (Job.step run pb₁ progress run' pb₂).Rounds)
    (hbalanced : ∀ j ∈ (Work.passes p).join?, j.Balanced)
    (hsound : ∀ t ∈ (Work.passes p).tasks, t.Sound) :
    ∃ left, (Job.step run pb₁ progress run' pb₂).Leaves left ∧ (∀ t ∈ left, t.Sound) ∧
      pb.Round (tickets (Work.passes p).tasks) (tickets left) pb₂ := by
  obtain ⟨htasks, hjoin, hround⟩ := Passes.round_current hcurrent
  obtain ⟨left, hleaves, hleft, hround'⟩ := h (by rwa [Balanced, hjoin]) (by rwa [given, htasks])
  rw [given, htasks] at hround'
  exact ⟨left, hleaves, hleft, hround.before hround'⟩

/-- A pass that is done is closed, and has left nothing. -/
theorem closed (hcurrent : p.current ticket pb = (run, suspended, pb₁))
    (h : (Job.step run pb₁ .done run' pb₂).Rounds)
    (hbalanced : ∀ j ∈ (Work.passes p).join?, j.Balanced)
    (hsound : ∀ t ∈ (Work.passes p).tasks, t.Sound) :
    pb.Round (tickets (Work.passes p).tasks) [] (p.closePass ticket run' pb₂) := by
  obtain ⟨_, ⟨hrun, -, hdone⟩, -, hround⟩ := h.current hcurrent hbalanced hsound
  obtain rfl := hdone rfl
  exact hround.after (Passes.round_closePass hrun.symm _)

theorem passesPending (hcurrent : p.current ticket pb = (run, suspended, pb₁))
    (h : (Job.step run pb₁ .pending run' pb').Rounds) :
    (Job.passes ticket p pb .pending { p with run := some run', suspended := true }
      pb').Rounds := by
  intro hbalanced hsound
  obtain ⟨_, ⟨rfl, hj, -⟩, hleft, hround⟩ := h.current hcurrent hbalanced hsound
  exact ⟨_, ⟨rfl, by simpa [Work.join?] using hj, by simp⟩, hleft, hround⟩

/-- No pass follows in this poll. -/
theorem passesEnd (hcurrent : p.current ticket pb = (run, suspended, pb₁))
    (h : (Job.step run pb₁ .done run' pb₂).Rounds) :
    (Job.passes ticket p pb progress (p.completePass suspended)
      (p.closePass ticket run' pb₂)).Rounds := by
  intro hbalanced hsound
  exact ⟨[], ⟨rfl, by simp [Work.join?, Passes.completePass], fun _ => rfl⟩, by simp,
    h.closed hcurrent hbalanced hsound⟩

theorem passesAgain (hcurrent : p.current ticket pb = (run, suspended, pb₁))
    (h : (Job.step run pb₁ .done run' pb₂).Rounds)
    (hp : (Job.passes ticket (p.completePass suspended) (p.closePass ticket run' pb₂) progress
      p' pb').Rounds) :
    (Job.passes ticket p pb progress p' pb').Rounds := by
  intro hbalanced hsound
  obtain ⟨left, hleaves, hleft, hround⟩ := hp
    (by simp [Balanced, Work.join?, Passes.completePass])
    (by simp [given, Work.tasks, Passes.completePass])
  exact ⟨left, hleaves, hleft, (h.closed hcurrent hbalanced hsound).andThen hround⟩

end Passes

end Rounds

/-- Every job is a round. The rounds of the parts follow one another, and where a part is done it
has left nothing, so that what comes next is given no task of it. -/
theorem Returns.round {j : Job H} (h : j.Returns) : j.Rounds := by
  induction h with
  -- polls and work
  | pollPending _ ih => exact ih.pollPending
  | pollDone _ ih => exact ih.pollDone
  | untilTime | untilFrame | untilParameter =>
      exact fun hbalanced _ => ⟨[], ⟨rfl, hbalanced, fun _ => rfl⟩, by simp, .refl _⟩
  | hosted _ =>
      exact fun hbalanced _ =>
        ⟨[], ⟨rfl, hbalanced, fun _ => rfl⟩, by simp, .of_acts (Context.acts_absorb _ _)⟩
  | block _ ih => exact ih.block
  | nested _ ih => exact ih
  -- joins, their forks and their branches
  | joinPolled _ ih => exact ih.joinPolled
  | joinStarted _ ih =>
      intro _ hsound
      obtain ⟨left, ⟨hbranches, hj⟩, hleft, hround⟩ := ih rfl hsound
      exact ⟨left, ⟨hbranches.symm, hj⟩, hleft, hround⟩
  | forkEnd | forkStopped =>
      exact fun hbalanced _ => ⟨[], ⟨(List.append_nil _).symm, hbalanced⟩, by simp, .refl _⟩
  | forkPast _ _ ih => exact ih
  | forkNext _ _ _ _ ihv ihf => exact ihv.forkNext ihf
  | visitFinished heq => exact fun _ _ => ⟨[], rfl, by simp, Context.round_invoke_none heq⟩
  | visitDone heq _ ih => exact ih.visitDone heq
  | visitPending heq _ ih => exact ih.visitPending heq
  | branchesEnd => exact fun _ _ => ⟨[], ⟨rfl, rfl⟩, by simp, .refl _⟩
  | branchesDone _ _ ih ih' => exact ih.branchesDone ih'
  | branchesPending _ _ ih ih' => exact ih.branchesPending ih'
  -- runs in list order
  | walkStopped | walkEnd => exact fun _ _ => ⟨[], ⟨rfl, fun _ => rfl⟩, by simp, .refl _⟩
  | walkNext _ _ _ _ ihv ihw =>
      intro _ _
      obtain ⟨_, rfl, -, hround⟩ := ihv trivial (by simp [given])
      obtain ⟨left, hleaves, hleft, hround'⟩ := ihw trivial (by simp [given])
      exact ⟨left, hleaves, hleft, hround.andThen hround'⟩
  | walkPending _ _ _ ih =>
      intro _ _
      obtain ⟨_, rfl, hleft, hround⟩ := ih trivial (by simp [given])
      exact ⟨_, ⟨rfl, by simp⟩, hleft, hround⟩
  | resumeWalk _ ih => exact fun _ hsound => ih trivial hsound
  | resumeDone _ _ ih ih' => exact ih.resumeDone ih'
  | resumePending _ ih =>
      intro _ hsound
      obtain ⟨_, rfl, hleft, hround⟩ := ih trivial hsound
      exact ⟨_, ⟨rfl, by simp⟩, hleft, hround⟩
  -- steps
  | stepSequential _ ih =>
      intro _ hsound
      obtain ⟨_, ⟨rfl, hdone⟩, hleft, hround⟩ := ih trivial hsound
      exact ⟨_, ⟨rfl, by simp [Run.join?], hdone⟩, hleft, hround⟩
  | stepParallel _ ih =>
      intro hbalanced hsound
      obtain ⟨_, ⟨rfl, hj⟩, hleft, hround⟩ := ih hbalanced hsound
      refine ⟨_, ⟨rfl, by simpa [Run.join?] using hj, fun hdone => ?_⟩, hleft, hround⟩
      exact hj.branches_of_isDone (Progress.doneIf_eq_done.mp hdone)
  -- passes
  | passesPending hcurrent _ ih => exact ih.passesPending hcurrent
  | passesFinished hcurrent _ _ ih | passesYield hcurrent _ _ ih => exact ih.passesEnd hcurrent
  | passesAgain hcurrent _ _ _ ih ih' => exact ih.passesAgain hcurrent ih'

end Job

end Sequencer
