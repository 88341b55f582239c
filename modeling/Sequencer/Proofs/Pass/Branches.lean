import Sequencer.Proofs.Pass.Fork
import Sequencer.Proofs.Playback.Rounds
import Sequencer.Proofs.Playback.Termination

/-!
# Sequencer.Proofs.Pass.Branches

What becomes of the branches of a join, whatever the nodes do to the cursor they share.

* `Join.Opens`: the nodes that a fork itself starts, at ascending positions (`Opens.ascending`,
  `Opens.within`); the nodes that these start in turn are not among them;
* `Join.Stands`: the counts of a join and its pending branches, read off what each of the started
  nodes has come to;
* `Join.Turn`, `Join.Turns`: each pending branch is polled once, in the order of starting, round
  after round.

`join_accounting` puts this together for each join, from its start on.
-/

namespace Sequencer

variable {H : Host}

/-- Is nothing of the visit pending? -/
def Outcome.isDone : Outcome H → Bool
  | .done => true
  | .pending _ => false

namespace Join

/-! ### The start -/

/-- A node that a fork started. -/
structure Branch (H : Host) where
  /-- The node's position. -/
  position : Nat
  /-- What its visit came to. -/
  outcome : Outcome H

/-- The fork at `next` starts these branches of the nodes in front of `stop`, one after another. -/
inductive Opens (s : Sequence H) (nested : NestedId) (stop : Nat) :
    Nat → Context H → List (Branch H) → Context H → Prop
  /-- No node is left, or a stop has been requested. -/
  | ended {next : Nat} {cx : Context H} :
      stop ≤ next ∨ s.length ≤ next ∨ cx.stopRequested = true → Opens s nested stop next cx [] cx
  /-- The node is visited, and the fork goes on behind the cursor. -/
  | started {next : Nat} {entry : SequenceEntry H} {outcome : Outcome H}
      {branches : List (Branch H)} {cx cx₁ cx' : Context H} :
      next < stop → s.nodes[next]? = some entry → cx.stopRequested = false →
      (Job.visit s nested next entry true (cx.moveTo next) outcome cx₁).Returns →
      Opens s nested stop (cx₁.nextBranch next) cx₁ branches cx' →
      Opens s nested stop next cx (⟨next, outcome⟩ :: branches) cx'

section

variable {s : Sequence H} {nested : NestedId} {stop next : Nat} {cx cx' : Context H}
  {opened : List (Branch H)}

/-- The positions are within the range and the sequence. -/
theorem Opens.within (h : Opens s nested stop next cx opened cx') :
    ∀ b ∈ opened, next ≤ b.position ∧ b.position < stop ∧ b.position < s.length := by
  induction h with
  | ended => simp
  | @started next _ _ _ _ cx₁ _ hstop hentry _ _ _ ih =>
      refine List.forall_mem_cons.mpr ⟨⟨Nat.le_refl _, hstop, ?_⟩, fun b hb => ?_⟩
      · exact (List.getElem?_eq_some_iff.mp hentry).1
      · obtain ⟨hle, hrest⟩ := ih b hb
        exact ⟨Nat.le_trans (Nat.le_of_lt (cx₁.lt_nextBranch next)) hle, hrest⟩

/-- The positions ascend, since a fork goes on behind the node that it started. -/
theorem Opens.ascending (h : Opens s nested stop next cx opened cx') :
    (opened.map Branch.position).Pairwise (· < ·) := by
  induction h with
  | ended => exact .nil
  | @started next _ _ _ _ cx₁ _ _ _ _ _ hrest ih =>
      refine List.pairwise_cons.mpr ⟨fun position hposition => ?_, ih⟩
      obtain ⟨b, hb, rfl⟩ := List.mem_map.mp hposition
      exact Nat.lt_of_lt_of_le (cx₁.lt_nextBranch next) (hrest.within b hb).1

/-- A fork counts the branches that it starts. -/
theorem opens_of_fork {p : Nat} {join join' : Join (Task H)} (hle : p ≤ next)
    (h : (Job.fork s nested (s.span p stop) next join cx join' cx').Returns) :
    ∃ opened, Opens s nested stop next cx opened cx' ∧
      join' = (opened.map Branch.outcome).foldl Join.count join := by
  induction hn : s.length - p generalizing p next join cx with
  | zero =>
      rw [s.span_of_length_le stop (by omega)] at h
      cases h
      exact ⟨[], .ended (.inr (.inl (by omega))), rfl⟩
  | succ n ih =>
      by_cases hp : p < stop
      · obtain ⟨entry, hentry⟩ := Sequence.exists_entry (show p < s.length by omega)
        rw [Sequence.span_cons hp hentry] at h
        cases h with
        | forkPast hpast h => exact ih hpast h (by omega)
        | forkStopped _ hstopped => exact ⟨[], .ended (.inr (.inr hstopped)), rfl⟩
        | @forkNext _ _ _ _ _ _ _ _ outcome _ cx₁ _ hnext hgoes hvisit hrest =>
            obtain rfl : next = p := by omega
            obtain ⟨opened, hopens, heq⟩ := ih (cx₁.lt_nextBranch next) hrest (by omega)
            exact ⟨⟨next, outcome⟩ :: opened, .started hp hentry hgoes hvisit hopens, heq⟩
      · rw [Sequence.span_of_le s (by omega)] at h
        cases h
        exact ⟨[], .ended (.inl (by omega)), rfl⟩

/-- A fork comes to an end if the visits that it comes to do. -/
theorem fork_ends {range : List (SequenceEntry H × Nat)} {join : Join (Task H)}
    (hrange : ∀ e ∈ range, s.nodes[e.2]? = some e.1)
    (h : ∀ position entry cx₁, s.nodes[position]? = some entry →
      (Errand.fork s nested range next join cx).Leads
        (.visit s nested position entry true cx₁) →
      (Errand.visit s nested position entry true cx₁).Ends) :
    (Errand.fork s nested range next join cx).Ends := by
  induction range generalizing next join cx with
  | nil => exact Errand.ends_of_calls fun a hcall => by cases hcall
  | cons e rest ih =>
      obtain ⟨hentry, hrest⟩ := List.forall_mem_cons.mp hrange
      refine Errand.ends_of_calls fun a hcall => ?_
      have hcalls := hcall
      cases hcall with
      | forkPast hpast =>
          exact ih hrest fun p entry cx₁ hmem hleads => h p entry cx₁ hmem (.head hcalls hleads)
      | forkVisit hle hgoes => exact h _ _ _ hentry (.single hcalls)
      | forkNext hle hgoes hvisit =>
          exact ih hrest fun p entry cx₁ hmem hleads => h p entry cx₁ hmem (.head hcalls hleads)

/-- A join starts if the visits that it comes to end. -/
theorem starts {first : Nat}
    (h : ∀ position entry cx₁, s.nodes[position]? = some entry →
      (Errand.join s nested first stop none cx).Leads (.visit s nested position entry true cx₁) →
      (Errand.visit s nested position entry true cx₁).Ends) :
    ∃ join cx', (Job.join s nested first stop none cx join cx').Returns := by
  have hfork := fork_ends (fun e he => Sequence.getElem?_of_range he)
    fun position entry cx₁ hentry hleads => h position entry cx₁ hentry (.head .fork hleads)
  obtain ⟨join, cx', hreturns⟩ := Errand.ends_fork hfork
  exact ⟨join, cx', .joinStarted hreturns⟩

end

/-! ### The counts -/

/-- The join owns the pending ones of its branches, in the order of starting, and counts the
others. -/
structure Stands (outcomes : List (Outcome H)) (join : Join (Task H)) : Prop where
  /-- All branches are counted. -/
  started : join.started = outcomes.length
  /-- The branches that are done are counted. -/
  completed : join.completed = outcomes.countP Outcome.isDone
  /-- The branches that are not done are kept. -/
  branches : join.branches = outcomes.flatMap Outcome.tasks

section

variable {outcomes : List (Outcome H)} {join : Join (Task H)}

theorem Stands.count (h : Stands outcomes join) (outcome : Outcome H) :
    Stands (outcomes ++ [outcome]) (join.count outcome) := by
  obtain ⟨hstarted, hcompleted, hbranches⟩ := h
  cases outcome with
  | done => exact ⟨by simp [Join.count, hstarted], by simp [Join.count, hcompleted, Outcome.isDone],
      by simp [Join.count, hbranches, Outcome.tasks]⟩
  | pending task => exact ⟨by simp [Join.count, hstarted],
      by simp [Join.count, hcompleted, Outcome.isDone],
      by simp [Join.count, hbranches, Outcome.tasks]⟩

theorem Stands.foldl (h : Stands outcomes join) (more : List (Outcome H)) :
    Stands (outcomes ++ more) (more.foldl Join.count join) := by
  induction more generalizing outcomes join with
  | nil => simpa using h
  | cons outcome rest ih =>
      rw [List.foldl_cons, List.append_cons]
      exact ih (h.count outcome)

theorem stands_empty : Stands ([] : List (Outcome H)) {} := ⟨rfl, rfl, rfl⟩

/-- A branch is done or pending. -/
theorem countP_add_length (outcomes : List (Outcome H)) :
    outcomes.countP Outcome.isDone + (outcomes.flatMap Outcome.tasks).length
      = outcomes.length := by
  induction outcomes with
  | nil => rfl
  | cons outcome rest ih =>
      rw [List.flatMap_cons, List.length_append, List.length_cons, List.countP_cons]
      cases outcome with
      | done =>
          simp only [Outcome.isDone, Outcome.tasks, if_true, List.length_nil]
          omega
      | pending task =>
          simp only [Outcome.isDone, Outcome.tasks, Bool.false_eq_true, if_false,
            List.length_singleton]
          omega

theorem Stands.balanced (h : Stands outcomes join) : join.Balanced := by
  have := countP_add_length outcomes
  rw [Balanced, h.completed, h.branches, h.started]
  exact this

end

/-! ### Later polls -/

/-- A round of polls: what each branch had come to before, and what it has come to afterwards. -/
inductive Turn : List (Outcome H) → Context H → List (Outcome H) → Context H → Prop
  /-- No branch is left. -/
  | nil {cx : Context H} : Turn [] cx [] cx
  /-- A branch that is done is not polled. -/
  | done {rest rest' : List (Outcome H)} {cx cx' : Context H} :
      Turn rest cx rest' cx' → Turn (.done :: rest) cx (.done :: rest') cx'
  /-- A pending branch is polled, and is done. -/
  | finishes {task task' : Task H} {rest rest' : List (Outcome H)} {cx cx₁ cx' : Context H} :
      (Job.poll task cx .done task' cx₁).Returns → Turn rest (cx₁.release task') rest' cx' →
      Turn (.pending task :: rest) cx (.done :: rest') cx'
  /-- A pending branch is polled, and stays pending. -/
  | waits {task task' : Task H} {rest rest' : List (Outcome H)} {cx cx₁ cx' : Context H} :
      (Job.poll task cx .pending task' cx₁).Returns → Turn rest cx₁ rest' cx' →
      Turn (.pending task :: rest) cx (.pending task' :: rest') cx'

/-- Round after round, each in the context that the owner of the join gives it. -/
inductive Turns : List (Outcome H) → List (Context H × Context H) → List (Outcome H) → Prop
  | nil (outcomes : List (Outcome H)) : Turns outcomes [] outcomes
  | cons {outcomes outcomes₁ outcomes' : List (Outcome H)} {cx cx₁ : Context H}
      {polls : List (Context H × Context H)} {completed started : Nat} :
      Turn outcomes cx outcomes₁ cx₁ → Turns outcomes₁ polls outcomes' →
      Turns outcomes ((cx, cx₁.record (.joinPolled completed started)) :: polls) outcomes'

/-- A join is polled again and again. -/
inductive Polled (s : Sequence H) (nested : NestedId) (first stop : Nat) :
    Join (Task H) → List (Context H × Context H) → Join (Task H) → Prop
  | nil (join : Join (Task H)) : Polled s nested first stop join [] join
  | cons {join join₁ join' : Join (Task H)} {cx cx₁ : Context H}
      {polls : List (Context H × Context H)} :
      (Job.join s nested first stop (some join) cx join₁ cx₁).Returns →
      Polled s nested first stop join₁ polls join' →
      Polled s nested first stop join ((cx, cx₁) :: polls) join'

section

variable {s : Sequence H} {nested : NestedId} {first stop : Nat} {cx cx' : Context H}
  {outcomes outcomes' : List (Outcome H)} {join join' : Join (Task H)}

/-- What is done stays done. -/
theorem Turn.countP_le (h : Turn outcomes cx outcomes' cx') :
    outcomes.countP Outcome.isDone ≤ outcomes'.countP Outcome.isDone := by
  induction h with
  | nil => exact Nat.le_refl _
  | done _ ih =>
      simp only [List.countP_cons, Outcome.isDone, if_true]
      omega
  | finishes _ _ ih =>
      simp only [List.countP_cons, Outcome.isDone, Bool.false_eq_true, if_false, if_true]
      omega
  | waits _ _ ih => simpa only [List.countP_cons, Outcome.isDone, Bool.false_eq_true, if_false]

theorem Turn.length_eq (h : Turn outcomes cx outcomes' cx') :
    outcomes'.length = outcomes.length := by
  induction h with
  | nil => rfl
  | done _ ih | finishes _ _ ih | waits _ _ ih => simp [ih]

/-- Polls of the pending branches are a round. -/
theorem turn_of_branches {tasks pending : List (Task H)} {finished : Nat}
    (h : (Job.branches tasks cx pending finished cx').Returns)
    (htasks : outcomes.flatMap Outcome.tasks = tasks) :
    ∃ outcomes', Turn outcomes cx outcomes' cx' ∧ outcomes'.flatMap Outcome.tasks = pending ∧
      outcomes'.countP Outcome.isDone = outcomes.countP Outcome.isDone + finished := by
  induction outcomes generalizing tasks cx pending finished with
  | nil =>
      subst htasks
      cases h
      exact ⟨[], .nil, rfl, rfl⟩
  | cons outcome rest ih =>
      cases outcome with
      | done =>
          obtain ⟨rest', hturn, hpending, hcount⟩ := ih h htasks
          refine ⟨.done :: rest', .done hturn, hpending, ?_⟩
          simp only [List.countP_cons, Outcome.isDone, if_true]
          omega
      | pending task =>
          subst htasks
          cases h with
          | branchesDone hpoll hrest =>
              obtain ⟨rest', hturn, hpending, hcount⟩ := ih hrest rfl
              refine ⟨.done :: rest', .finishes hpoll hturn, hpending, ?_⟩
              simp only [List.countP_cons, Outcome.isDone, Bool.false_eq_true, if_false, if_true]
              omega
          | branchesPending hpoll hrest =>
              obtain ⟨rest', hturn, hpending, hcount⟩ := ih hrest rfl
              refine ⟨.pending _ :: rest', .waits hpoll hturn, ?_, ?_⟩
              · rw [List.flatMap_cons, hpending]
                rfl
              · simp only [List.countP_cons, Outcome.isDone, Bool.false_eq_true, if_false]
                omega

/-- A poll of a join is a round. -/
theorem Stands.poll (h : Stands outcomes join)
    (hpoll : (Job.join s nested first stop (some join) cx join' cx').Returns) :
    ∃ outcomes' cx₁ completed started, Turn outcomes cx outcomes' cx₁ ∧
      cx' = cx₁.record (.joinPolled completed started) ∧ Stands outcomes' join' := by
  cases hpoll with
  | joinPolled hbranches =>
      obtain ⟨outcomes', hturn, hpending, hcount⟩ := turn_of_branches hbranches h.branches.symm
      refine ⟨outcomes', _, _, _, hturn, rfl, ?_, ?_, hpending.symm⟩
      · simp only [Join.update, h.started, hturn.length_eq]
      · simp only [Join.update, h.completed, hcount]

/-- Any number of polls are as many rounds. -/
theorem Stands.polled (h : Stands outcomes join) {polls : List (Context H × Context H)}
    (hpolls : Polled s nested first stop join polls join') :
    ∃ outcomes', Turns outcomes polls outcomes' ∧ Stands outcomes' join' ∧
      join'.started = join.started ∧ join.completed ≤ join'.completed := by
  induction hpolls generalizing outcomes with
  | nil => exact ⟨outcomes, .nil _, h, rfl, Nat.le_refl _⟩
  | cons hpoll _ ih =>
      obtain ⟨outcomes₁, cx₁, completed, started, hturn, rfl, hstands⟩ := h.poll hpoll
      obtain ⟨outcomes', hturns, hstands', hstarted, hcompleted⟩ := ih hstands
      refine ⟨outcomes', .cons hturn hturns, hstands', ?_, Nat.le_trans ?_ hcompleted⟩
      · rw [hstarted, hstands.started, h.started, hturn.length_eq]
      · rw [h.completed, hstands.completed]
        exact hturn.countP_le

/-- Polls of branches come to an end if each that comes up does. -/
theorem branches_end_of_polls {tasks : List (Task H)}
    (h : ∀ task cx₁, (Errand.branches tasks cx).Leads (.poll task cx₁) →
      (Errand.poll task cx₁).Ends) : (Errand.branches tasks cx).Ends := by
  induction tasks generalizing cx with
  | nil => exact Errand.ends_of_calls fun a hcall => by cases hcall
  | cons task rest ih =>
      refine Errand.ends_of_calls fun a hcall => ?_
      have hcalls := hcall
      cases hcall with
      | branchPoll => exact h _ _ (.single hcalls)
      | branchesDone hpoll => exact ih fun task cx₁ hleads => h task cx₁ (.head hcalls hleads)
      | branchesPending hpoll => exact ih fun task cx₁ hleads => h task cx₁ (.head hcalls hleads)

/-- A poll of a join comes to an end if the polls that it comes to do. -/
theorem polls (h : ∀ task cx₁, (Errand.join s nested first stop (some join) cx).Leads
      (.poll task cx₁) → (Errand.poll task cx₁).Ends) :
    ∃ join' cx', (Job.join s nested first stop (some join) cx join' cx').Returns := by
  have hbranches := branches_end_of_polls fun task cx₁ hleads =>
    h task cx₁ (.head .branches hleads)
  obtain ⟨pending, finished, cx', hreturns⟩ := Errand.ends_branches hbranches
  exact ⟨_, _, .joinPolled hreturns⟩

end

end Join

/-- The visit of a node that runs no others comes to an end. -/
theorem visit_ends_of_plain {s : Sequence H} {nested : NestedId} {position : Nat}
    {entry : SequenceEntry H} (hblock : ∀ count, entry.node ≠ .parallelNext count)
    (hpasses : ∀ inner identity loops, entry.node ≠ .nested inner identity loops)
    (parallel : Bool) (cx : Context H) :
    (Errand.visit s nested position entry parallel cx).Ends := by
  refine Errand.ends_of_calls fun a hcall => ?_
  cases hcall with
  | firstPoll hinvoke =>
      obtain ⟨work, cx₁, hstart, rfl, rfl⟩ := Context.invoke_some hinvoke
      rcases Node.start_cases hstart with ⟨count, _, _, hnode, -⟩ |
        ⟨inner, identity, loops, hnode, -⟩ | hplain
      · exact absurd hnode (hblock count)
      · exact absurd hnode (hpasses inner identity loops)
      · exact Task.pollEnds_of_work (fun cx _ => plain_ends hplain _ cx) _ rfl

open Join

/-- **The accounts of a join.** If the visits that a join comes to do end, it starts the nodes that
its fork opens: at ascending positions, within the range and the sequence, and it counts each of
them. However often it is polled afterwards, the number of started branches stays what it was, and
no branch is taken back that was done. The branches left are those of the started ones that are
still pending, in the order of starting, and each poll polls each of these once, in that order
(`Turns`, `Stands`). The join is done, and reports so, if and only if no branch is left. A further
poll returns if those of the branches do. -/
theorem join_accounting (s : Sequence H) (nested : NestedId) (first stop : Nat) (cx : Context H)
    (hvisits : ∀ position entry cx₁, s.nodes[position]? = some entry →
      (Errand.join s nested first stop none cx).Leads (.visit s nested position entry true cx₁) →
      (Errand.visit s nested position entry true cx₁).Ends) :
    ∃ join cx' opened, (Job.join s nested first stop none cx join cx').Returns ∧
      Opens s nested stop first cx opened cx' ∧
      (opened.map Branch.position).Pairwise (· < ·) ∧
      (∀ b ∈ opened, first ≤ b.position ∧ b.position < stop ∧ b.position < s.length) ∧
      join.started = opened.length ∧
      ∀ polls later, Polled s nested first stop join polls later →
        later.started = join.started ∧
        later.started = later.completed + later.branches.length ∧
        (later.isDone = true ↔ later.branches = []) ∧
        (Progress.doneIf later.isDone = .done ↔ later.branches = []) ∧
        (∃ outcomes, Turns (opened.map Branch.outcome) polls outcomes ∧ Stands outcomes later) ∧
        (∀ polls' later', Polled s nested first stop later polls' later' →
          later.completed ≤ later'.completed) ∧
        ∀ cx₁, (∀ task cx₂, (Errand.join s nested first stop (some later) cx₁).Leads
            (.poll task cx₂) → (Errand.poll task cx₂).Ends) →
          ∃ later' cx₂, (Job.join s nested first stop (some later) cx₁ later' cx₂).Returns := by
  obtain ⟨join, cx', hstart⟩ := Join.starts hvisits
  cases hstart with
  | joinStarted hfork =>
      obtain ⟨opened, hopens, heq⟩ := opens_of_fork (Nat.le_refl first) hfork
      have hstands : Stands (opened.map Branch.outcome) join := by
        have hfold := stands_empty.foldl (opened.map Branch.outcome)
        rwa [List.nil_append, ← heq] at hfold
      refine ⟨join, cx', opened, .joinStarted hfork, hopens, hopens.ascending, hopens.within, ?_,
        fun polls later hpolls => ?_⟩
      · simpa using hstands.started
      · obtain ⟨outcomes, hturns, hlater, hstarted, -⟩ := hstands.polled hpolls
        have hdone := hlater.balanced.isDone_iff
        refine ⟨hstarted, hlater.balanced.symm, hdone, Progress.doneIf_eq_done.trans hdone,
          ⟨outcomes, hturns, hlater⟩, fun polls' later' hpolls' => ?_, fun cx₁ => Join.polls⟩
        obtain ⟨-, -, -, -, hcompleted⟩ := hlater.polled hpolls'
        exact hcompleted

/-- Two pauses around a skip. -/
def pauses : Sequence Host.none where
  id := ⟨.ofNat 1⟩
  name := "pauses"
  nodes := [.new ⟨.ofNat 1⟩ (.waitFrames 1), .new ⟨.ofNat 2⟩ (.skip (.new 1)),
    .new ⟨.ofNat 3⟩ (.log (.new "hush") .info), .new ⟨.ofNat 4⟩ (.waitFrames 2)]

theorem join_accounting_pauses :
    ∃ (join : Join (Task Host.none)) (cx' : Context Host.none) (opened : List (Branch Host.none)),
      (Job.join pauses .root 1 9 none ⟨.start, {}⟩ join cx').Returns ∧
      (∀ b ∈ opened, 1 ≤ b.position ∧ b.position < 4) ∧ join.started = opened.length ∧
      ∀ polls later, Polled pauses .root 1 9 join polls later →
        later.started = opened.length ∧
        (Progress.doneIf later.isDone = .done ↔ later.branches = []) := by
  have hplain : ∀ entry ∈ pauses.nodes, (∀ count, entry.node ≠ .parallelNext count) ∧
      ∀ inner identity loops, entry.node ≠ .nested inner identity loops := by
    simp [pauses, Entry.new]
  obtain ⟨join, cx', opened, hreturns, -, -, hwithin, hstarted, hlater⟩ :=
    join_accounting pauses .root 1 9 ⟨.start, {}⟩ fun position entry cx₁ hentry _ =>
      have ⟨hblock, hpasses⟩ := hplain entry (List.mem_of_getElem? hentry)
      visit_ends_of_plain hblock hpasses true cx₁
  refine ⟨join, cx', opened, hreturns, fun b hb => ?_, hstarted, fun polls later hpolls => ?_⟩
  · obtain ⟨hfirst, -, hlength⟩ := hwithin b hb
    exact ⟨hfirst, hlength⟩
  · obtain ⟨heq, -, -, hdone, -⟩ := hlater polls later hpolls
    exact ⟨heq.trans hstarted, hdone⟩

end Sequencer
