import Sequencer.Proofs.Playback.Places

/-!
# Sequencer.Proofs.Playback.Moves

A step, as the playback shows it, is one move after the other. `Playback.Move` lists them: code
acts, a node is invoked, a task is launched, or the scheduler reports on a task, a pass or a join.

`Job.Returns.moves` is the one induction on the rules for it, and `Errand.Leads.moves` says the same
of what a step comes to that may not end. What is said about the playback alone, whatever the tasks
look like, follows by induction on the moves.
-/

namespace Sequencer

open Relation

variable {H : Host}

/-- Does the event report on a task, a pass or a join? -/
def Event.isReport : Event H → Bool
  | polled _ | completed _ | abandoned _ | passStarted _ | passEnded .. | joinPolled .. => true
  | _ => false

theorem Event.of_isReport {e : Event H} (h : e.isReport = true) :
    e.isSignal = false ∧ e.invocation? = none ∧ e ≠ .stopRequested := by
  cases e <;> simp_all [isReport, isSignal, invocation?]

/-- One move of the scheduler. -/
inductive Playback.Move : Playback H → Playback H → Prop
  | act {pb pb' : Playback H} : pb.Act pb' → Move pb pb'
  /-- No node is invoked once a stop is requested. -/
  | invoke (cx : Context H) (s : Sequence H) (nested : NestedId) (position : Nat)
      (entry : SequenceEntry H) (parallel : Bool) : cx.stopRequested = false →
      Move cx.playback
        (cx.record (.invoked (cx.invocation s nested position entry parallel))).playback
  | launch (pb : Playback H) :
      Move pb ({ pb with nextTicket := pb.nextTicket + 1 }.record (.launched pb.nextTicket))
  | report (pb : Playback H) {e : Event H} : e.isReport = true → Move pb (pb.record e)

/-- Moves of the scheduler. -/
abbrev Playback.Moves : Playback H → Playback H → Prop := ReflTransGen Playback.Move

namespace Playback.Moves

theorem of_acts {a b : Playback H} (h : a.Acts b) : a.Moves b :=
  ReflTransGen.mono (fun _ _ hact => Move.act hact) a b h

theorem abandon (pb : Playback H) (tasks : List Held) : pb.Moves (pb.abandon tasks) := by
  induction tasks generalizing pb with
  | nil => exact .refl
  | cons task rest ih => exact .head (.report pb rfl) (ih _)

/-- The bindings stay. -/
theorem bindings {a b : Playback H} (h : a.Moves b) : b.bindings = a.bindings := by
  induction h with
  | refl => rfl
  | tail _ hmove ih =>
      refine Eq.trans ?_ ih
      cases hmove with
      | act hact => cases hact <;> rfl
      | invoke | launch | report => rfl

end Playback.Moves

open Playback (Moves)

theorem Context.moves_release (cx : Context H) (task : Task H) :
    cx.playback.Moves (cx.release task).playback :=
  .abandon cx.playback task.held

theorem Context.moves_invoke {cx cx' : Context H} {s : Sequence H} {nested : NestedId}
    {position : Nat} {entry : SequenceEntry H} {parallel : Bool} {left : Option (Task H)}
    (hgo : cx.stopRequested = false)
    (h : cx.invoke s nested position entry parallel = (left, cx')) :
    cx.playback.Moves cx'.playback := by
  have hacts := acts_start
    (cx.record (.invoked (cx.invocation s nested position entry parallel))) entry.node s nested
    (cx.fieldValues entry.node ⟨s.id, nested⟩)
  have hmoves := ReflTransGen.head (.invoke cx s nested position entry parallel hgo)
    (Moves.of_acts hacts)
  cases left with
  | none =>
      rw [invoke_none h] at hmoves
      exact hmoves
  | some task =>
      obtain ⟨work, cx₁, hstart, -, rfl⟩ := invoke_some h
      rw [hstart] at hmoves
      exact hmoves.tail (.launch cx₁.playback)

theorem Passes.moves_current {ticket : Nat} {p : Passes H (Task H)} {pb pb' : Playback H}
    {run : SequenceRun H} {suspended : Bool} (h : p.current ticket pb = (run, suspended, pb')) :
    pb.Moves pb' := by
  unfold Passes.current at h
  split at h
  · cases h
    exact .refl
  · cases h
    exact .single (.report pb rfl)

theorem Passes.moves_closePass (ticket : Nat) (p : Passes H (Task H)) (run : SequenceRun H)
    (pb : Playback H) : pb.Moves (p.closePass ticket run pb) :=
  (Moves.abandon pb run.held).tail (.report _ rfl)

/-- The scheduler sets out to visit a node only while no stop is requested. -/
def Errand.Permitted : Errand H → Prop
  | .visit _ _ _ _ _ cx => cx.stopRequested = false
  | _ => True

/-- **Moves of a job.** Whatever the scheduler does, it does by moves. -/
theorem Job.Returns.moves {j : Job H} (h : j.Returns) (hpermitted : j.errand.Permitted) :
    j.before.Moves j.after := by
  induction h with
  -- polls and work
  | pollPending _ ih => exact .head (.report _ rfl) (ih trivial)
  | pollDone _ ih => exact .tail (.head (.report _ rfl) (ih trivial)) (.report _ rfl)
  | untilTime | untilFrame | untilParameter => exact .refl
  | hosted _ => exact .of_acts (Context.acts_absorb _ _)
  | block _ ih => simpa [before, after] using ih trivial
  | nested _ ih => exact ih trivial
  -- joins, their forks and their branches: before each visit the stop request is looked at
  | joinPolled _ ih => exact (ih trivial).tail (.report _ rfl)
  | joinStarted _ ih => exact ih trivial
  | forkEnd | forkStopped => exact .refl
  | forkPast _ _ ih => exact ih trivial
  | forkNext _ hgo _ _ ihv ihf => exact (ihv hgo).trans (ihf trivial)
  | visitFinished heq => exact Context.moves_invoke hpermitted heq
  | visitDone heq _ ih =>
      exact ((Context.moves_invoke hpermitted heq).trans (ih trivial)).trans
        (Context.moves_release _ _)
  | visitPending heq _ ih => exact (Context.moves_invoke hpermitted heq).trans (ih trivial)
  | branchesEnd => exact .refl
  | branchesDone _ _ ih ih' =>
      exact ((ih trivial).trans (Context.moves_release _ _)).trans (ih' trivial)
  | branchesPending _ _ ih ih' => exact (ih trivial).trans (ih' trivial)
  -- runs and passes
  | walkStopped | walkEnd => exact .refl
  | walkNext hgo _ _ _ ihv ihw => exact (ihv hgo).trans (ihw trivial)
  | walkPending hgo _ _ ih => exact ih hgo
  | resumeWalk _ ih => exact ih trivial
  | resumeDone _ _ ih ih' =>
      exact ((ih trivial).trans (Context.moves_release _ _)).trans (ih' trivial)
  | resumePending _ ih => exact ih trivial
  | stepSequential _ ih => exact ih trivial
  | stepParallel _ ih => exact ih trivial
  | passesPending hcur _ ih => exact (Passes.moves_current hcur).trans (ih trivial)
  | passesFinished hcur _ _ ih | passesYield hcur _ _ ih =>
      exact ((Passes.moves_current hcur).trans (ih trivial)).trans (Passes.moves_closePass ..)
  | passesAgain hcur _ _ _ ih ih' =>
      exact (((Passes.moves_current hcur).trans (ih trivial)).trans
        (Passes.moves_closePass ..)).trans (ih' trivial)

/-! ### On the way -/

namespace Errand

/-- A call is reached by moves. -/
theorem Calls.moves {a b : Errand H} (h : a.Calls b) (hpermitted : a.Permitted) :
    a.playback.Moves b.playback ∧ b.Permitted := by
  cases h with
  | work => exact ⟨.single (.report _ rfl), trivial⟩
  | block | nested | branches | fork | forkPast => exact ⟨.refl, trivial⟩
  | forkVisit _ hgo => exact ⟨.refl, hgo⟩
  | forkNext _ hgo hvisit => exact ⟨hvisit.moves hgo, trivial⟩
  | firstPoll hinvoke => exact ⟨Context.moves_invoke hpermitted hinvoke, trivial⟩
  | branchPoll => exact ⟨.refl, trivial⟩
  | branchesDone hpoll =>
      exact ⟨(hpoll.moves trivial).trans (Context.moves_release _ _), trivial⟩
  | branchesPending hpoll => exact ⟨hpoll.moves trivial, trivial⟩
  | walkVisit hgo _ => exact ⟨.refl, hgo⟩
  | walkNext hgo _ hvisit => exact ⟨hvisit.moves hgo, trivial⟩
  | resumeWalk | resumePoll => exact ⟨.refl, trivial⟩
  | resumeNext hpoll => exact ⟨(hpoll.moves trivial).trans (Context.moves_release _ _), trivial⟩
  | sequential | parallel => exact ⟨.refl, trivial⟩
  | pass hcurrent => exact ⟨Passes.moves_current hcurrent, trivial⟩
  | nextPass hcurrent hstep _ =>
      exact ⟨((Passes.moves_current hcurrent).trans (hstep.moves trivial)).trans
        (Passes.moves_closePass ..), trivial⟩

/-- **Moves of an errand.** Whatever the scheduler comes to, it comes there by moves, and it comes
to a node only while no stop is requested. -/
theorem Leads.moves {a b : Errand H} (h : a.Leads b) (hpermitted : a.Permitted) :
    a.playback.Moves b.playback ∧ b.Permitted := by
  induction h with
  | refl => exact ⟨.refl, hpermitted⟩
  | tail _ hcall ih =>
      obtain ⟨hmoves, hb⟩ := ih
      obtain ⟨hmoves', hc⟩ := hcall.moves hb
      exact ⟨hmoves.trans hmoves', hc⟩

end Errand

end Sequencer
