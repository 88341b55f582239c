import Sequencer.Proofs.Playback.Rounds
import Sequencer.Proofs.Player.Stopping

/-!
# Sequencer.Proofs.Player.Tickets

What becomes of the tasks of a player, from one command to the next. The history falls into runs
(`Player.runs`), and within a run every task has a ticket of its own.

* `Underway` are the books of a run during playback: every task that was launched is done or held.
* `Ended` are the books of a run that came to its end: every task that was launched is done or was
  given up, and a run that finished on its own gave up none.

Every move of a player keeps the books (`invariant_accounted`). From them follow the conservation of
tasks (`tasks_conserved`) and the discipline of polls (`polls_disciplined`).
-/

namespace Sequencer

variable {H : Host}

/-! ### The books of a run -/

/-- No task is polled once it is done, and no task at all once the run has come to its end. -/
def Disciplined (run : List (Event H)) : Prop :=
  run.Pairwise fun newer older =>
    (∀ ticket, older = .completed ticket → newer ≠ .polled ticket) ∧
      (older.isSignal = true → ∀ ticket, newer ≠ .polled ticket)

theorem Disciplined.cons {run : List (Event H)} (h : Disciplined run) {e : Event H}
    (he : e.polled? = none) : Disciplined (e :: run) := by
  have hne : ∀ ticket, e ≠ .polled ticket := by
    rintro ticket rfl
    cases he
  exact List.pairwise_cons.mpr ⟨fun _ _ => ⟨fun ticket _ => hne ticket, fun _ => hne⟩, h⟩

theorem Disciplined.append {run events : List (Event H)} (h : Disciplined run)
    (hevents : ∀ e ∈ events, e.polled? = none) : Disciplined (events ++ run) := by
  induction events with
  | nil => exact h
  | cons e events ih =>
      obtain ⟨he, hevents⟩ := List.forall_mem_cons.mp hevents
      exact (ih hevents).cons he

/-- Events in which no task is polled twice, and none is done before it is polled. -/
theorem disciplined_of_polledFirst {events : List (Event H)} (horder : PolledFirst events)
    (honce : (events.filterMap Event.polled?).Nodup) (hinner : ∀ e ∈ events, e.isSignal = false) :
    Disciplined events := by
  induction events with
  | nil => exact List.Pairwise.nil
  | cons e older ih =>
      have hpolled : ∀ ticket, e = .polled ticket → ticket ∉ older.filterMap Event.polled? := by
        rintro ticket rfl
        exact (List.nodup_cons.mp honce).1
      refine List.pairwise_cons.mpr ⟨fun e' he' => ⟨?_, fun hsignal => ?_⟩, ?_⟩
      · rintro ticket rfl heq
        refine hpolled ticket heq (horder older (List.suffix_cons e older) ?_)
        exact List.mem_filterMap.mpr ⟨_, he', rfl⟩
      · rw [hinner e' (List.mem_cons_of_mem e he')] at hsignal
        cases hsignal
      · refine ih (fun older' h => horder older' (h.trans (List.suffix_cons e older))) ?_
          fun e' he' => hinner e' (List.mem_cons_of_mem e he')
        exact honce.sublist ((List.sublist_cons_self e older).filterMap _)

/-- The books of a run during playback. The next ticket is `next`. -/
structure Underway (run : List (Event H)) (next : Nat) (held : List Nat) : Prop where
  launched : run.filterMap Event.launched? = (List.range next).reverse
  kept : (run.filterMap Event.completed? ++ held).Perm (List.range next)
  abandoned : run.filterMap Event.abandoned? = []
  calm : ∀ e ∈ run, e.isSignal = false
  order : Disciplined run

/-- The books of a run that came to its end. -/
structure Ended (run : List (Event H)) : Prop where
  launched : (run.filterMap Event.launched?).Nodup
  kept : (run.filterMap Event.completed? ++ run.filterMap Event.abandoned?).Perm
    (run.filterMap Event.launched?)
  natural : .finished ∈ run → run.filterMap Event.abandoned? = []
  /-- Where the run was stopped, no task was left. -/
  stopped : ∀ status older, .stopped status :: older <:+ run →
    (older.filterMap Event.completed? ++ older.filterMap Event.abandoned?).Perm
      (older.filterMap Event.launched?)
  order : Disciplined run

/-- If a task was polled in the run, then the host was told of the end of it. -/
def Told (run : List (Event H)) : Prop :=
  run.filterMap Event.polled? ≠ [] → ∃ e ∈ run, e.isSignal = true

namespace Underway

variable {run : List (Event H)} {next : Nat} {held : List Nat}

theorem start : Underway (H := H) [] 0 [] :=
  ⟨rfl, .nil, rfl, by simp, List.Pairwise.nil⟩

theorem quiet (h : Underway run next held) {e : Event H} (he : e.isQuiet = true) :
    Underway (e :: run) next held := by
  obtain ⟨hlaunched, hpolled, hcompleted, habandoned, -, hsignal⟩ := Event.of_isQuiet he
  refine ⟨?_, ?_, ?_, List.forall_mem_cons.mpr ⟨hsignal, h.calm⟩, h.order.cons hpolled⟩
  · rw [List.filterMap_cons_none hlaunched, h.launched]
  · rw [List.filterMap_cons_none hcompleted]
    exact h.kept
  · rw [List.filterMap_cons_none habandoned, h.abandoned]

theorem quietAll (h : Underway run next held) {events : List (Event H)}
    (hquiet : ∀ e ∈ events, e.isQuiet = true) : Underway (events ++ run) next held := by
  induction events with
  | nil => exact h
  | cons e events ih =>
      obtain ⟨he, hevents⟩ := List.forall_mem_cons.mp hquiet
      exact (ih hevents).quiet he

theorem nodup (h : Underway run next held) :
    (run.filterMap Event.completed? ++ held).Nodup :=
  h.kept.nodup_iff.mpr List.nodup_range

/-- In a step each task that is held or launched is polled once. -/
theorem polled_nodup (h : Underway run next held) {count : Nat} {left : List Nat}
    {events : List (Event H)} (haccounts : Accounts next count held left events) :
    (events.filterMap Event.polled?).Nodup := by
  refine haccounts.polled.nodup_iff.mpr (List.nodup_append.mpr
    ⟨(List.nodup_append.mp h.nodup).2.1, List.nodup_range', ?_⟩)
  rintro ticket hheld _ hnew rfl
  have hlt : ticket < next := List.mem_range.mp (h.kept.mem_iff.mp (List.mem_append_right _ hheld))
  have hle := (List.mem_range'_1.mp hnew).1
  omega

/-- The books after a step. -/
theorem step (h : Underway run next held) {count : Nat} {left : List Nat}
    {events : List (Event H)} (haccounts : Accounts next count held left events) :
    Underway (events ++ run) (next + count) left where
  launched := by
    rw [List.filterMap_append, haccounts.launched, h.launched, ← List.reverse_append,
      List.range_eq_range', List.range_eq_range', ← List.range'_append_1, Nat.zero_add]
  kept := by
    have hbefore := List.perm_iff_count.mp h.kept
    have hstep := List.perm_iff_count.mp haccounts.kept
    rw [List.perm_iff_count]
    intro ticket
    have := hbefore ticket
    have := hstep ticket
    simp only [List.filterMap_append, List.count_append, List.range_eq_range',
      ← List.range'_append_1, Nat.zero_add] at *
    omega
  abandoned := by
    rw [List.filterMap_append, haccounts.abandoned, h.abandoned, List.append_nil]
  calm := List.forall_mem_append.mpr ⟨fun e he => (haccounts.inner e he).2, h.calm⟩
  order := by
    have hevents := disciplined_of_polledFirst haccounts.order (h.polled_nodup haccounts)
      fun e he => (haccounts.inner e he).2
    refine List.pairwise_append.mpr ⟨hevents, h.order, fun newer hnewer older holder => ⟨?_, ?_⟩⟩
    · -- A task that was done before the step is neither held nor launched in it.
      rintro ticket rfl rfl
      have hdone : ticket ∈ run.filterMap Event.completed? :=
        List.mem_filterMap.mpr ⟨_, holder, rfl⟩
      have hpolled : ticket ∈ events.filterMap Event.polled? :=
        List.mem_filterMap.mpr ⟨_, hnewer, rfl⟩
      rcases List.mem_append.mp (haccounts.polled.mem_iff.mp hpolled) with hheld | hnew
      · exact (List.nodup_append.mp h.nodup).2.2 ticket hdone ticket hheld rfl
      · have hlt : ticket < next :=
          List.mem_range.mp (h.kept.mem_iff.mp (List.mem_append_left _ hdone))
        have hle := (List.mem_range'_1.mp hnew).1
        omega
    · intro hsignal
      rw [h.calm older holder] at hsignal
      cases hsignal

end Underway

namespace Ended

variable {run : List (Event H)}

theorem nil : Ended (H := H) [] :=
  ⟨List.nodup_nil, .nil, by simp, by simp, List.Pairwise.nil⟩

/-- One more event that tells of no task. The end of a run that finished follows where no task was
given up. -/
theorem tell (h : Ended run) {e : Event H} (hlaunched : e.launched? = none)
    (hpolled : e.polled? = none) (hcompleted : e.completed? = none) (habandoned : e.abandoned? = none)
    (hfinished : e = .finished → run.filterMap Event.abandoned? = []) : Ended (e :: run) where
  launched := by
    rw [List.filterMap_cons_none hlaunched]
    exact h.launched
  kept := by
    rw [List.filterMap_cons_none hlaunched, List.filterMap_cons_none hcompleted,
      List.filterMap_cons_none habandoned]
    exact h.kept
  natural := by
    rw [List.filterMap_cons_none habandoned]
    intro hmem
    rcases List.mem_cons.mp hmem with heq | hmem
    · exact hfinished heq.symm
    · exact h.natural hmem
  stopped := by
    intro status older holder
    rcases List.suffix_cons_iff.mp holder with heq | hsuffix
    · obtain ⟨-, rfl⟩ := List.cons.inj heq
      exact h.kept
    · exact h.stopped status older hsuffix
  order := h.order.cons hpolled

theorem quiet (h : Ended run) {e : Event H} (he : e.isQuiet = true) : Ended (e :: run) := by
  obtain ⟨hlaunched, hpolled, hcompleted, habandoned, -, hsignal⟩ := Event.of_isQuiet he
  refine h.tell hlaunched hpolled hcompleted habandoned ?_
  rintro rfl
  cases hsignal

theorem quietAll (h : Ended run) {events : List (Event H)}
    (hquiet : ∀ e ∈ events, e.isQuiet = true) : Ended (events ++ run) := by
  induction events with
  | nil => exact h
  | cons e events ih =>
      obtain ⟨he, hevents⟩ := List.forall_mem_cons.mp hquiet
      exact (ih hevents).quiet he

end Ended

/-! ### The books of a player -/

namespace Player

/-- What the history tells of each run, the latest one first; the last entry is what happened before
the first run. -/
def runs (p : Player H) : List (List (Event H)) := p.playback.history.splitOnP Event.opensRun

/-- The tickets of the tasks that are held. -/
def heldTickets (p : Player H) : List Nat := p.held.map Held.ticket

variable {p q : Player H}

theorem heldTickets_of_run {run : SequenceRun H} (hrun : p.run = some run) :
    p.heldTickets = tickets run.tasks := by
  simp [heldTickets, held, hrun, Run.held_eq, tickets]

theorem held_of_none (h : p.run = none) : p.held = [] := by
  simp [held, h]

theorem runs_append {events run : List (Event H)} {past : List (List (Event H))}
    (hruns : p.runs = run :: past) (hhistory : q.playback.history = events ++ p.playback.history)
    (hinner : ∀ e ∈ events, e.opensRun = false) : q.runs = (events ++ run) :: past := by
  unfold runs at *
  rw [hhistory]
  clear hhistory
  induction events with
  | nil => exact hruns
  | cons e events ih =>
      have he : e.opensRun = false := hinner e List.mem_cons_self
      rw [List.cons_append, List.splitOnP_cons_eq_if_modifyHead,
        ih fun e' he' => hinner e' (List.mem_cons_of_mem e he'), he]
      rfl

/-- The books of a player are in order: those of the latest run, which may be under way, and those
of every run before. -/
structure Accounted (p : Player H) : Prop where
  consistent : p.Consistent
  sound : ∀ run, p.run = some run →
    (∀ j ∈ run.join?, j.Balanced) ∧ ∀ t ∈ run.tasks, t.Sound
  books : ∃ run past, p.runs = run :: past ∧
    (p.isPlaying = true → Underway run p.playback.nextTicket p.heldTickets) ∧
    (p.isPlaying = false → Ended run ∧ Told run) ∧ ∀ run ∈ past, Ended run

/-- What happens beside the run leaves the books in order. -/
theorem Accounted.edits (h : p.Accounted) (hedits : p.Edits q) : q.Accounted := by
  obtain ⟨hconsistent, hsound, run, past, hruns, hplaying, hidle, hpast⟩ := h
  obtain ⟨events, hhistory, haside⟩ := hedits.history
  have hquiet : ∀ e ∈ events, e.isQuiet = true := fun e he =>
    Event.isQuiet_of_isAside (haside e he)
  have hphase : q.isPlaying = p.isPlaying := by
    rw [isPlaying, hedits.phase]
    rfl
  have hheld : q.heldTickets = p.heldTickets := by
    rw [heldTickets, held, hedits.run]
    rfl
  refine ⟨invariant_consistent.edits hconsistent hedits, by rwa [hedits.run], events ++ run, past,
    runs_append hruns hhistory fun e he => (Event.of_isQuiet (hquiet e he)).2.2.2.2.1, ?_, ?_, hpast⟩
  · intro hq
    rw [hheld, hedits.nextTicket]
    exact (hplaying (hphase ▸ hq)).quietAll hquiet
  · intro hq
    obtain ⟨hended, htold⟩ := hidle (hphase ▸ hq)
    refine ⟨hended.quietAll hquiet, fun hpolled => ?_⟩
    have hnone : events.filterMap Event.polled? = [] :=
      List.filterMap_eq_nil_iff.mpr fun e he => (Event.of_isQuiet (hquiet e he)).2.1
    rw [List.filterMap_append, hnone] at hpolled
    obtain ⟨e, he, hsignal⟩ := htold hpolled
    exact ⟨e, List.mem_append_right events he, hsignal⟩

/-! ### The end of a run -/

theorem launched_givenUp : p.givenUp.filterMap Event.launched? = [] := by
  simp [givenUp, List.filterMap_map, Function.comp_def, Event.launched?]

theorem completed_givenUp : p.givenUp.filterMap Event.completed? = [] := by
  simp [givenUp, List.filterMap_map, Function.comp_def, Event.completed?]

theorem abandoned_givenUp : p.givenUp.filterMap Event.abandoned? = p.heldTickets.reverse := by
  simp [givenUp, heldTickets, List.filterMap_reverse, List.filterMap_map, Function.comp_def,
    Event.abandoned?]

theorem ended_giveUp {run : List (Event H)}
    (h : Underway run p.playback.nextTicket p.heldTickets) : Ended (p.givenUp ++ run) := by
  have hcalm : ∀ e ∈ p.givenUp ++ run, e.isSignal = false := by
    simpa [or_imp, forall_and, Event.isSignal] using h.calm
  refine ⟨?_, ?_, fun hfinished => ?_, fun status older holder => ?_, h.order.append fun e he => ?_⟩
  · rw [List.filterMap_append, launched_givenUp, List.nil_append, h.launched]
    exact (List.reverse_perm _).nodup_iff.mpr List.nodup_range
  · simp only [List.filterMap_append, launched_givenUp, completed_givenUp, abandoned_givenUp,
      h.launched, h.abandoned, List.nil_append, List.append_nil]
    exact (((List.reverse_perm _).append_left _).trans h.kept).trans (List.reverse_perm _).symm
  · cases hcalm _ hfinished
  · cases hcalm (.stopped status) (holder.subset List.mem_cons_self)
  · obtain ⟨task, -, rfl⟩ := mem_givenUp.mp he
    rfl

section Ends

variable {run : List (Event H)} {past : List (List (Event H))}
  (hruns : p.runs = run :: past) (hpast : ∀ run ∈ past, Ended run)
  (hrun : Underway run p.playback.nextTicket p.heldTickets)

include hruns hpast hrun

theorem accounted_stop (hplaying : p.isPlaying = true) : p.stop.Accounted := by
  let ending : List (Event H) :=
    .stopped p.stop.status :: .noticed (.stopped p.sequence.name) :: p.givenUp
  have hruns' : p.stop.runs = (ending ++ run) :: past :=
    runs_append hruns (stop_history hplaying) (by simp [ending, Event.opensRun, Notice.opensRun])
  have hnotice : Ended (.noticed (.stopped p.sequence.name) :: (p.givenUp ++ run)) :=
    (ended_giveUp hrun).quiet rfl
  have hended : Ended (ending ++ run) := hnotice.tell rfl rfl rfl rfl (by simp)
  have hidle : p.stop.isPlaying = false := by
    rw [isPlaying, stop_phase hplaying]
    rfl
  exact ⟨consistent_stop hplaying, by simp [stop_run hplaying], ending ++ run, past, hruns',
    by simp [hidle], fun _ => ⟨hended, fun _ => ⟨_, List.mem_cons_self, rfl⟩⟩, hpast⟩

/-- The end of a run that finished on its own. There is no task that would be given up. -/
theorem accounted_finish (hcalm : p.playback.stopRequested = false) (hheld : p.held = []) :
    p.finish.Accounted := by
  have hgivenUp : p.givenUp = [] := by simp [givenUp, hheld]
  let name := p.sequence.name
  let steps := (p.playback.abandon p.held).clock.frame + 1
  have hhistory : p.finish.playback.history =
      [.finished, .noticed (.finished name steps)] ++ p.playback.history := by
    rw [finish_history, hgivenUp]
    rfl
  have hruns' : p.finish.runs = ([.finished, .noticed (.finished name steps)] ++ run) :: past :=
    runs_append hruns hhistory (by simp [Event.opensRun, Notice.opensRun])
  have hnotice : Ended (.noticed (.finished name steps) :: run) := by
    have hended := ended_giveUp hrun
    rw [hgivenUp] at hended
    exact hended.quiet rfl
  have hended : Ended ([.finished, .noticed (.finished name steps)] ++ run) :=
    hnotice.tell rfl rfl rfl rfl fun _ => hrun.abandoned
  exact ⟨⟨finish_stopRequested.trans hcalm, rfl⟩, by simp, _, past, hruns',
    by simp [isPlaying], fun _ => ⟨hended, fun _ => ⟨_, List.mem_cons_self, rfl⟩⟩, hpast⟩

end Ends

/-- What a step of the run tells of its tasks. -/
theorem Accounted.step (h : p.Accounted) {run run' : SequenceRun H} {progress : Progress}
    {pb : Playback H} (hrun : p.run = some run)
    (hreturns : (Job.step run p.playback progress run' pb).Returns) :
    ∃ events count, pb.history = events ++ p.playback.history ∧
      pb.nextTicket = p.playback.nextTicket + count ∧
      Accounts p.playback.nextTicket count p.heldTickets (tickets run'.tasks) events ∧
      ((∀ j ∈ run'.join?, j.Balanced) ∧ ∀ t ∈ run'.tasks, t.Sound) ∧
      (progress = .done → run'.tasks = []) := by
  obtain ⟨hjoins, htasks⟩ := h.sound run hrun
  obtain ⟨_, ⟨rfl, hjoins', hdone⟩, htasks', count, events, hhistory, hnext, haccounts⟩ :=
    hreturns.round hjoins htasks
  rw [Job.given, ← heldTickets_of_run hrun] at haccounts
  exact ⟨events, count, hhistory, hnext, haccounts, ⟨hjoins', htasks'⟩, hdone⟩

theorem invariant_accounted : Invariant (Accounted (H := H)) where
  fresh sequence settings :=
    ⟨⟨rfl, rfl⟩, by simp, [], [], rfl, by simp [isPlaying],
      fun _ => ⟨.nil, by simp [Told]⟩, by simp⟩
  edits := Accounted.edits
  started := by
    intro p h hidle
    obtain ⟨hconsistent, -, run, past, hruns, -, hended, hpast⟩ := h
    have hruns' : p.started.runs = [] :: run :: past := by
      rw [← hruns, runs, started, record, Playback.record, List.splitOnP_cons_eq_if_modifyHead]
      rfl
    have hheld : p.started.heldTickets = [] := by
      rw [heldTickets_of_run (p := p.started) rfl, Run.tasks_new]
      rfl
    refine ⟨invariant_consistent.started hconsistent hidle, ?_, [], run :: past, hruns', fun _ => ?_,
      by simp [isPlaying, started, record], List.forall_mem_cons.mpr ⟨(hended hidle).1, hpast⟩⟩
    · rintro _ ⟨⟩
      rw [Run.join?_new, Run.tasks_new]
      simp
    · rw [hheld]
      exact .start
  step := by
    intro p p' fuel h hstep
    rcases step_cases hstep with ⟨-, rfl⟩ | ⟨run, progress, run', pb, hrun, hreturns, rfl⟩
    · exact h
    obtain ⟨events, count, hhistory, hnext, haccounts, hsound, hdone⟩ := h.step hrun hreturns
    obtain ⟨hconsistent, -, r, past, hruns, hunderway, -, hpast⟩ := h
    have hplaying := hconsistent.isPlaying_of_run hrun
    let stepped : Player H := { p with run := some run', playback := pb }
    have hruns' : stepped.runs = (events ++ r) :: past :=
      runs_append hruns hhistory fun e he => (haccounts.inner e he).1
    have hunderway' : Underway (events ++ r) stepped.playback.nextTicket stepped.heldTickets := by
      rw [heldTickets_of_run (p := stepped) rfl]
      exact hnext ▸ (hunderway hplaying).step haccounts
    -- The books are in order after the step of the run. What follows it closes them, or leaves them.
    rcases stepped.conclude_cases progress with ⟨-, hend⟩ | ⟨hcalm, rfl, hend⟩ | ⟨hcalm, -, hend⟩
    · let request : Event H := .noticed (.stopRequested p.sequence.name)
      have hasked : (stepped.record request).runs = ([request] ++ (events ++ r)) :: past :=
        runs_append hruns' rfl (by simp [request, Event.opensRun, Notice.opensRun])
      rw [hend]
      exact accounted_stop hasked hpast (hunderway'.quiet rfl) hplaying
    · rw [hend]
      refine accounted_finish hruns' hpast hunderway' hcalm ?_
      simp [held, stepped, Run.held_eq, hdone, heldByBranches]
    · rw [hend]
      exact ⟨⟨hcalm, hplaying⟩, by rintro _ ⟨⟩; exact hsound, _, past, hruns', fun _ => hunderway',
        (fun hidle => by cases (hplaying.symm.trans hidle)), hpast⟩
  stop := by
    intro p h
    cases hplaying : p.isPlaying with
    | false => rwa [stop_of_idle hplaying]
    | true =>
        obtain ⟨-, -, run, past, hruns, hunderway, -, hpast⟩ := h
        exact accounted_stop hruns hpast (hunderway hplaying) hplaying

theorem Begins.accounted (hp : p.Reachable) (hq : p.Begins q) : q.Accounted := by
  have haccounted := invariant_accounted.of_reachable hp
  cases hq with
  | play hidle => exact invariant_accounted.started haccounted hidle
  | tick delta hplaying => exact invariant_accounted.edits haccounted (edits_later p delta)

/-- **Discipline of polls.** In every step that comes to an end each task that was held when the step
began, and each task that was launched in it, is polled once. No task is polled in its run once it
reported that it is done, or once the run has ended. -/
theorem polls_disciplined (hp : p.Reachable) :
    (∀ q fuel p', p.Begins q → q.step fuel = some p' → ∃ events,
      p'.playback.history = events ++ q.playback.history ∧
      (events.filterMap Event.polled?).Nodup ∧
      (events.filterMap Event.polled?).Perm
        (q.heldTickets ++ events.filterMap Event.launched?)) ∧
    (∀ run ∈ p.runs, Disciplined run) ∧
    (p.isPlaying = false → ∀ run ∈ p.runs.head?, Told run) := by
  obtain ⟨-, -, run, past, hruns, hunderway, hended, hpast⟩ := invariant_accounted.of_reachable hp
  refine ⟨fun q fuel p' hq hstep => ?_, ?_, fun hidle => ?_⟩
  · have haccounted := hq.accounted hp
    rcases step_cases hstep with ⟨hnone, rfl⟩ | ⟨run, progress, run', pb, hrun, hreturns, rfl⟩
    · exact ⟨[], rfl, List.nodup_nil, by simp [heldTickets, held_of_none hnone]⟩
    have hplaying := haccounted.consistent.isPlaying_of_run hrun
    obtain ⟨events, count, hhistory, -, haccounts, -⟩ := haccounted.step hrun hreturns
    obtain ⟨r, past, -, hunderway, -⟩ := haccounted.books
    let stepped : Player H := { q with run := some run', playback := pb }
    obtain ⟨ending, hending, hclosing, -⟩ := history_conclude (p := stepped) hplaying progress
    -- At the end of playback no task is launched or polled, so the turns are those of the step.
    have hquiet : ∀ e ∈ ending, e.launched? = none ∧ e.polled? = none := fun e he =>
      ⟨(Event.of_isClosing (hclosing e he)).2.1, (Event.of_isClosing (hclosing e he)).2.2.1⟩
    have hpolled : (ending ++ events).filterMap Event.polled? = events.filterMap Event.polled? := by
      rw [List.filterMap_append, List.filterMap_eq_nil_iff.mpr fun e he => (hquiet e he).2,
        List.nil_append]
    have hlaunched : (ending ++ events).filterMap Event.launched?
        = events.filterMap Event.launched? := by
      rw [List.filterMap_append, List.filterMap_eq_nil_iff.mpr fun e he => (hquiet e he).1,
        List.nil_append]
    refine ⟨ending ++ events, ?_, ?_, ?_⟩
    · rw [hending, hhistory, List.append_assoc]
    · rw [hpolled]
      exact (hunderway hplaying).polled_nodup haccounts
    · rw [hpolled, hlaunched, haccounts.launched]
      exact haccounts.polled.trans ((List.reverse_perm _).symm.append_left _)
  · rw [hruns]
    refine List.forall_mem_cons.mpr ⟨?_, fun run hrun => (hpast run hrun).order⟩
    cases hplaying : p.isPlaying with
    | true => exact (hunderway hplaying).order
    | false => exact (hended hplaying).1.order
  · rw [hruns]
    rintro _ ⟨⟩
    exact (hended hidle).2

/-- A parallel sequence with a short wait and a long one. -/
def watch : Sequence Host.none where
  id := ⟨.ofNat 2⟩
  name := "watch"
  parallel := true
  nodes := [.new ⟨.ofNat 1⟩ (.waitFrames 1), .new ⟨.ofNat 2⟩ (.waitFrames 2)]

/-- A block of a wait and of two watches. -/
def vigil : Sequence Host.none where
  id := ⟨.ofNat 1⟩
  name := "vigil"
  nodes := [
    .new ⟨.ofNat 1⟩ (.parallelNext 2),
    .new ⟨.ofNat 2⟩ (.waitFrames 1),
    .new ⟨.ofNat 3⟩ (.nested watch ⟨.ofNat 3⟩ (.times 2 LoopCount.inRange_two)),
    .new ⟨.ofNat 4⟩ (.log (.new "over") .info)]

/-- In the second tick of a vigil the block, the watches and the long wait have their turn; the watch
is over, and so the two waits of the next one are launched and have theirs. -/
theorem polls_disciplined_vigil :
    ∃ p p' : Player Host.none, p.Reachable ∧ p.heldTickets = [0, 2, 4] ∧
      (p.later 0.5).step 9 = some p' ∧ p'.heldTickets = [0, 2, 5, 6] ∧
      ∃ events, p'.playback.history = events ++ p.playback.history ∧
        (events.filterMap Event.polled?).Nodup ∧
        (events.filterMap Event.polled?).Perm [0, 2, 4, 6, 5] ∧
        ∀ run ∈ p.runs, Disciplined run := by
  have hcomputed : ((Player.new vigil).obeyAll 9 [.play, .tick 0.5]).bind (fun p =>
      ((p.later 0.5).step 9).map fun p' => (p.isPlaying, p.heldTickets, p'.heldTickets,
        p.playback.history.filterMap Event.launched?,
        p'.playback.history.filterMap Event.launched?)) =
      some (true, [0, 2, 4], [0, 2, 5, 6], [4, 3, 2, 1, 0], [6, 5] ++ [4, 3, 2, 1, 0]) := by
    decide +kernel
  obtain ⟨p, hp, hrest⟩ := Option.bind_eq_some_iff.mp hcomputed
  obtain ⟨p', hstep, hvalues⟩ := Option.map_eq_some_iff.mp hrest
  simp only [Prod.mk.injEq] at hvalues
  obtain ⟨hplaying, hheld, hheld', hbefore, hafter⟩ := hvalues
  have hreachable : p.Reachable := (Reachable.new vigil {}).obeyAll hp
  obtain ⟨hstep_polls, hdisciplined, -⟩ := polls_disciplined hreachable
  obtain ⟨events, hhistory, hnodup, hperm⟩ :=
    hstep_polls (p.later 0.5) 9 p' (.tick 0.5 hplaying) hstep
  have hhistory : p'.playback.history = events ++ p.playback.history := hhistory
  have hlaunched : events.filterMap Event.launched? = [6, 5] := by
    rw [hhistory, List.filterMap_append, hbefore] at hafter
    exact List.append_cancel_right hafter
  have hheld_later : (p.later 0.5).heldTickets = [0, 2, 4] := hheld
  rw [hlaunched, hheld_later] at hperm
  exact ⟨p, p', hreachable, hheld, hstep, hheld', events, hhistory, hnodup, hperm, hdisciplined⟩

/-- **Conservation of tasks.** At every point between two commands, in the latest run each task that
was launched is done, was given up or is held, and in every run before each is done or was given up.
A run that finished on its own gave up no task. A stop gives up whatever is held, and when the host
is told of it no task is left. Without playback no task is held. -/
theorem tasks_conserved (hp : p.Reachable) :
    (∃ run past, p.runs = run :: past ∧
      (run.filterMap Event.launched?).Nodup ∧
      (run.filterMap Event.completed? ++ run.filterMap Event.abandoned? ++ p.heldTickets).Perm
        (run.filterMap Event.launched?) ∧
      ∀ run ∈ past, (run.filterMap Event.launched?).Nodup ∧
        (run.filterMap Event.completed? ++ run.filterMap Event.abandoned?).Perm
          (run.filterMap Event.launched?)) ∧
    (∀ run ∈ p.runs, .finished ∈ run → run.filterMap Event.abandoned? = []) ∧
    (∀ run ∈ p.runs, ∀ status older, .stopped status :: older <:+ run →
      (older.filterMap Event.completed? ++ older.filterMap Event.abandoned?).Perm
        (older.filterMap Event.launched?)) ∧
    (p.isPlaying = true → ∃ events, p.stop.playback.history = events ++ p.playback.history ∧
      (events.filterMap Event.abandoned?).Perm p.heldTickets ∧
      events.filterMap Event.completed? = []) ∧
    (p.isPlaying = false → p.held = []) := by
  obtain ⟨hconsistent, -, run, past, hruns, hunderway, hended, hpast⟩ :=
    invariant_accounted.of_reachable hp
  have hheld : p.isPlaying = false → p.held = [] := fun hidle =>
    held_of_none (hconsistent.run_of_idle hidle)
  rw [hruns]
  refine ⟨⟨run, past, rfl, ?_, ?_, fun run hrun => ⟨(hpast run hrun).launched, (hpast run hrun).kept⟩⟩,
    List.forall_mem_cons.mpr ⟨?_, fun run hrun => (hpast run hrun).natural⟩,
    List.forall_mem_cons.mpr ⟨?_, fun run hrun => (hpast run hrun).stopped⟩, fun hplaying => ?_, hheld⟩
  · -- tickets of the last run, which may be under way or over
    cases hplaying : p.isPlaying with
    | true =>
        rw [(hunderway hplaying).launched]
        exact (List.reverse_perm _).nodup_iff.mpr List.nodup_range
    | false => exact (hended hplaying).1.launched
  · -- what has become of them
    cases hplaying : p.isPlaying with
    | true =>
        have hrun := hunderway hplaying
        rw [hrun.launched, hrun.abandoned, List.append_nil]
        exact hrun.kept.trans (List.reverse_perm _).symm
    | false =>
        rw [heldTickets, hheld hplaying, List.map_nil, List.append_nil]
        exact (hended hplaying).1.kept
  · -- a run that is under way has told of no end
    intro hfinished
    cases hplaying : p.isPlaying with
    | true => cases (hunderway hplaying).calm _ hfinished
    | false => exact (hended hplaying).1.natural hfinished
  · intro status older holder
    cases hplaying : p.isPlaying with
    | true => cases (hunderway hplaying).calm (.stopped status) (holder.subset List.mem_cons_self)
    | false => exact (hended hplaying).1.stopped status older holder
  · -- to stop gives up all that is held
    refine ⟨.stopped p.stop.status :: .noticed (.stopped p.sequence.name) :: p.givenUp,
      stop_history hplaying, ?_, ?_⟩
    · exact (List.Perm.of_eq abandoned_givenUp).trans (List.reverse_perm _)
    · exact completed_givenUp

/-- A vigil that is stopped after the first tick, and begun again. -/
theorem tasks_conserved_vigil :
    ∃ p : Player Host.none, p.Reachable ∧ p.heldTickets = [0, 1, 2, 3, 4] ∧
      ∃ run stopped prelude, p.runs = [run, stopped, prelude] ∧
        (run.filterMap Event.completed? ++ run.filterMap Event.abandoned? ++ p.heldTickets).Perm
          (run.filterMap Event.launched?) ∧
        stopped.filterMap Event.completed? = [3, 1] ∧
        stopped.filterMap Event.abandoned? = [4, 2, 0] ∧
        (stopped.filterMap Event.completed? ++ stopped.filterMap Event.abandoned?).Perm
          (stopped.filterMap Event.launched?) := by
  have hcomputed : ((Player.new vigil).obeyAll 9 [.play, .tick 0.5, .stop, .play]).map (fun p =>
      (p.heldTickets, p.runs.map fun run =>
        (run.filterMap Event.completed?, run.filterMap Event.abandoned?))) =
      some ([0, 1, 2, 3, 4], [([], []), ([3, 1], [4, 2, 0]), ([], [])]) := by decide +kernel
  obtain ⟨p, hp, hvalues⟩ := Option.map_eq_some_iff.mp hcomputed
  obtain ⟨hheld, hruns⟩ := Prod.mk.inj hvalues
  have hreachable : p.Reachable := (Reachable.new vigil {}).obeyAll hp
  obtain ⟨⟨run, past, heq, -, hrun, hpast⟩, -⟩ := tasks_conserved hreachable
  rw [heq] at hruns
  obtain ⟨-, hruns⟩ := List.cons.inj hruns
  obtain ⟨stopped, rest, rfl, hstopped, hrest⟩ := List.map_eq_cons_iff.mp hruns
  obtain ⟨prelude, rest, rfl, -, hnil⟩ := List.map_eq_cons_iff.mp hrest
  obtain rfl := List.map_eq_nil_iff.mp hnil
  obtain ⟨hcompleted, habandoned⟩ := Prod.mk.inj hstopped
  exact ⟨p, hreachable, hheld, run, stopped, prelude, heq, hrun, hcompleted, habandoned,
    (hpast stopped List.mem_cons_self).2⟩

end Player

end Sequencer
