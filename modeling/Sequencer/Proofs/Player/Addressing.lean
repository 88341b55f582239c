import Sequencer.Proofs.Binding.Address
import Sequencer.Proofs.Playback.Whereabouts
import Sequencer.Proofs.Player.Stopping

/-!
# Sequencer.Proofs.Player.Addressing

How overrides are addressed at run time. Two things meet here: the occurrences that the bindings
have groups for, which the traversal of the tree collects, and the occurrences that nodes are
invoked in, which the scheduler carries along.

A player is `Addressed` if its run is at home in the tree and its bindings are in line with it.
Every move keeps this, and so does the first step of a run. The theorem is `overrides_addressed`.
-/

namespace Sequencer

open Relation

variable {H : Host}

namespace Player

variable {p q : Player H} {fuel : Nat}

/-! ### What stays -/

/-- Sequence and bindings stay, and no other run comes in. -/
structure Keeps (p q : Player H) : Prop where
  sequence : q.sequence = p.sequence
  bindings : q.playback.bindings = p.playback.bindings
  run : q.run = none ∨ q.run = p.run

theorem Keeps.trans {r : Player H} (h : p.Keeps q) (h' : q.Keeps r) : p.Keeps r := by
  refine ⟨h'.sequence.trans h.sequence, h'.bindings.trans h.bindings, ?_⟩
  rcases h'.run with hrun | hrun
  · exact .inl hrun
  · rw [hrun]
    exact h.run

theorem keeps_finish (p : Player H) : p.Keeps p.finish :=
  ⟨rfl, (Playback.Stretch.abandon p.playback p.held).bindings, .inl rfl⟩

theorem keeps_stop (p : Player H) : p.Keeps p.stop := by
  unfold stop
  split
  · exact ⟨rfl, (Playback.Stretch.abandon p.playback p.held).bindings, .inl rfl⟩
  · exact ⟨rfl, rfl, .inr rfl⟩

theorem keeps_conclude (p : Player H) (progress : Progress) : p.Keeps (p.conclude progress) := by
  rcases p.conclude_cases progress with ⟨-, hend⟩ | ⟨-, -, hend⟩ | ⟨-, -, hend⟩
  · let asked := p.record (.noticed (.stopRequested p.sequence.name))
    have hasked : p.Keeps asked := ⟨rfl, rfl, .inr rfl⟩
    rw [hend]
    exact hasked.trans (keeps_stop asked)
  · rw [hend]
    exact keeps_finish p
  · rw [hend]
    exact ⟨rfl, rfl, .inr rfl⟩

/-- A step is one of the same sequence. -/
theorem sequence_step (h : p.step fuel = some q) : q.sequence = p.sequence := by
  rcases step_cases h with ⟨-, rfl⟩ | ⟨run, progress, run', playback, -, -, rfl⟩
  · rfl
  · exact (keeps_conclude _ progress).sequence

/-! ### The invariant -/

/-- The run belongs to the root of the tree, and the bindings are in line with the tree. -/
structure Addressed (p : Player H) : Prop where
  consistent : p.Consistent
  housed : ∀ run ∈ p.run, run.Belongs ⟨p.sequence, .root⟩
  aligned : p.sequence.Authored → p.playback.bindings.Aligned p.sequence

theorem aligned_reconcileBindings (p : Player H) (hroot : p.sequence.Authored) :
    p.reconcileBindings.2.playback.bindings.Aligned p.sequence := by
  rw [bindings_reconcileBindings]
  exact Bindings.aligned_reconcile p.playback.bindings hroot.tidy

namespace Addressed

theorem of_keeps (h : p.Addressed) (hq : q.Consistent) (hkeeps : p.Keeps q) : q.Addressed := by
  refine ⟨hq, fun run hrun => ?_, ?_⟩
  · rw [hkeeps.sequence]
    rcases hkeeps.run with hnone | hsame
    · rw [hnone] at hrun
      cases hrun
    · exact h.housed run (hsame ▸ hrun)
  · rw [hkeeps.sequence, hkeeps.bindings]
    exact h.aligned

theorem started (h : p.Addressed) (hidle : p.isPlaying = false) : p.started.Addressed where
  consistent := invariant_consistent.started h.consistent hidle
  housed := by
    rintro run ⟨⟩
    exact Run.belongs_new p.sequence .root
  aligned := h.aligned

theorem later (h : p.Addressed) (delta : Float) : (p.later delta).Addressed :=
  h.of_keeps (invariant_consistent.edits h.consistent (edits_later p delta)) ⟨rfl, rfl, .inr rfl⟩

theorem step (h : p.Addressed) (hstep : p.step fuel = some q) : q.Addressed := by
  have hq := invariant_consistent.step h.consistent hstep
  rcases step_cases hstep with ⟨-, rfl⟩ | ⟨run, progress, run', pb, hrun, hreturns, rfl⟩
  · exact h
  let stepped : Player H := { p with run := some run', playback := pb }
  have hkeeps : stepped.Keeps (stepped.conclude progress) := keeps_conclude stepped progress
  have hbindings : pb.bindings = p.playback.bindings := hreturns.bindings
  have hleft : run'.Belongs ⟨p.sequence, .root⟩ := hreturns.leavesTo (h.housed run hrun)
  refine ⟨hq, fun r hr => ?_, fun hroot => ?_⟩
  · rw [hkeeps.sequence]
    rcases hkeeps.run with hnone | hsame
    · rw [hnone] at hr
      cases hr
    · rw [hsame] at hr
      cases hr
      exact hleft
  · rw [hkeeps.sequence] at hroot ⊢
    rw [hkeeps.bindings]
    change pb.bindings.Aligned p.sequence
    rw [hbindings]
    exact h.aligned hroot

theorem move (h : p.Addressed) (hmove : p.Move q) : q.Addressed := by
  have hq := invariant_consistent.move h.consistent hmove
  cases hmove with
  | aside hedits _ hsequence hbindings =>
      exact h.of_keeps hq ⟨hsequence, hbindings, .inr hedits.run⟩
  | bind bindings =>
      exact ⟨hq, h.housed, fun hroot => aligned_reconcileBindings
        { p with playback := { p.playback with bindings } } hroot⟩
  | amend hamends =>
      refine ⟨hq, h.housed, fun hroot => ?_⟩
      cases hamends with
      | override o index value => exact (h.aligned hroot).setOverride o index value
      | enable o index enabled => exact (h.aligned hroot).setEnabled o index enabled
  | recast sequence hidle =>
      have hnone : p.run = none := h.consistent.run_of_idle hidle
      refine ⟨hq, fun run hrun => ?_,
        fun hroot => aligned_reconcileBindings { p with sequence } hroot⟩
      change run ∈ p.run at hrun
      rw [hnone] at hrun
      cases hrun
  | tick delta _ hstep => exact (h.later delta).step hstep
  | stop _ => exact h.of_keeps hq (keeps_stop p)

theorem moves (h : p.Addressed) (hmoves : p.Moves q) : q.Addressed := by
  induction hmoves with
  | refl => exact h
  | tail _ hmove ih => exact ih.move hmove

theorem of_reachable (hp : p.Reachable) : p.Addressed := by
  refine hp.of_moves (fun sequence settings => ?_) move fun h hidle => (h.started hidle).step
  exact ⟨invariant_consistent.of_reachable (.new sequence settings), by rintro run ⟨⟩,
    fun hroot => aligned_reconcileBindings { sequence, settings } hroot⟩

end Addressed

/-! ### A step -/

theorem Begins.keeps (hq : p.Begins q) :
    q.sequence = p.sequence ∧ q.playback.bindings = p.playback.bindings := by
  cases hq with
  | play _ => exact ⟨rfl, rfl⟩
  | tick delta _ => exact ⟨rfl, rfl⟩

theorem Begins.addressed (hp : p.Addressed) (hq : p.Begins q) : q.Addressed := by
  cases hq with
  | play hidle => exact hp.started hidle
  | tick delta _ => exact hp.later delta

section Step

variable {run : SequenceRun H}

/-- The scheduler comes to nodes of reachable occurrences, each in its place, and the occurrence is
the innermost one around. -/
theorem Addressed.visit (h : p.Addressed) (hrun : p.run = some run) {s : Sequence H}
    {nested : NestedId} {position : Nat} {entry : SequenceEntry H} {parallel : Bool} {cx : Context H}
    (hleads : (Errand.step run p.playback).Leads (.visit s nested position entry parallel cx)) :
    ((∃ r, Spot.Leads ⟨.step run p.playback, ⟨p.sequence, .root⟩⟩
        ⟨.visit s nested position entry parallel cx, r⟩) ∧
      ∀ r, Spot.Leads ⟨.step run p.playback, ⟨p.sequence, .root⟩⟩
        ⟨.visit s nested position entry parallel cx, r⟩ → r = ⟨s, nested⟩) ∧
    p.sequence.Reaches ⟨s, nested⟩ ∧ s.nodes[position]? = some entry := by
  have hhoused : run.Belongs ⟨p.sequence, .root⟩ := h.housed run hrun
  have haround : ∀ r, Spot.Leads ⟨.step run p.playback, ⟨p.sequence, .root⟩⟩
      ⟨.visit s nested position entry parallel cx, r⟩ → r = ⟨s, nested⟩ := by
    intro r hspot
    obtain ⟨⟨hr, -⟩, -⟩ := hspot.belongs hhoused
    exact hr.symm
  obtain ⟨r, hspot⟩ := hleads.exists_spot ⟨p.sequence, .root⟩
  obtain ⟨⟨hr, hentry⟩, hreaches⟩ := hspot.belongs hhoused
  refine ⟨⟨⟨r, hspot⟩, haround⟩, ?_, hentry⟩
  rw [hr]
  exact hreaches

/-- The invocations that the history of a step tells of are those that the scheduler came to. -/
theorem comes_of_step (hp : p.Consistent) (hrun : p.run = some run) (hstep : p.step fuel = some q) :
    ∃ events, q.playback.history = events ++ p.playback.history ∧
      ∀ i, .invoked i ∈ events → (Errand.step run p.playback).Comes i := by
  rcases step_cases hstep with ⟨hnone, -⟩ | ⟨run', progress, left, pb, hrun', hreturns, rfl⟩
  · rw [hrun] at hnone
    cases hnone
  obtain rfl : run = run' := Option.some.inj (hrun.symm.trans hrun')
  obtain ⟨is, hstretch, hcomes⟩ := hreturns.covers
  obtain ⟨events, hhistory, his, -⟩ := hstretch.history
  let stepped : Player H := { p with run := some left, playback := pb }
  have hplaying : stepped.isPlaying = true := hp.isPlaying_of_run hrun
  obtain ⟨ending, hending, hclosing, -⟩ := history_conclude hplaying progress
  refine ⟨ending ++ events, ?_, fun i hi => ?_⟩
  · rw [hending, List.append_assoc]
    exact congrArg (ending ++ ·) hhistory
  · rcases List.mem_append.mp hi with hi | hi
    · cases (Event.of_isClosing (hclosing _ hi)).1
    · exact hcomes i (his ▸ List.mem_filterMap.mpr ⟨_, hi, rfl⟩)

end Step

/-! ### The theorem -/

/-- **Override addressing.** At any moment, also amid a command, the bindings of a player are in
line with its tree of sequences, so that there would be nothing to report. A node that nests a
sequence leaves it to run under the node's identity, which no poll changes. In the step that may
begin then, whether it comes to an end or not: the scheduler comes to nodes of reachable occurrences
only, each in its place; the sequence and the identity that it invokes them with are those of the
innermost occurrence around it; and for each field that such a node declares the bindings, which do
not change within the step, have one group with one slot, which decides the field's value. If the
step comes to an end, then the invocations that its history tells of are these, and they tell of the
values that the bindings give. -/
theorem overrides_addressed {p₀ p : Player H} (hp₀ : p₀.Reachable) (hmoves : p₀.Moves p)
    (hroot : p.sequence.Authored) (hids : p.sequence.DistinctIds) :
    p.reconcileBindings.1.isUnchanged = true ∧
    (∀ (task task' : Task H) cx cx' progress, (Job.poll task cx progress task' cx').Returns →
      task'.work.place? = task.work.place?) ∧
    ∀ q run, p.Begins q → q.run = some run →
      (∀ s nested position entry parallel cx,
        (Errand.step run q.playback).Leads (.visit s nested position entry parallel cx) →
        ((∃ r, Spot.Leads ⟨.step run q.playback, ⟨p.sequence, .root⟩⟩
            ⟨.visit s nested position entry parallel cx, r⟩) ∧
          ∀ r, Spot.Leads ⟨.step run q.playback, ⟨p.sequence, .root⟩⟩
            ⟨.visit s nested position entry parallel cx, r⟩ → r = ⟨s, nested⟩) ∧
        (p.sequence.Reaches ⟨s, nested⟩ ∧ s.nodes[position]? = some entry) ∧
        cx.playback.bindings = p.playback.bindings ∧
        (∀ d ∈ entry.node.declarations, p.playback.bindings.Governs ⟨s.id, nested⟩ d.field) ∧
        ∀ inner identity loops task cx', entry.node = .nested inner identity loops →
          cx.invoke s nested position entry parallel = (some task, cx') →
          task.work.place? = some ⟨inner, identity⟩) ∧
      ∀ fuel p', q.step fuel = some p' → ∃ events,
        p'.playback.history = events ++ q.playback.history ∧
        ∀ i, .invoked i ∈ events →
          (∃ cx, (Errand.step run q.playback).Leads
            (.visit i.sequence i.nested i.position i.entry i.parallel cx)) ∧
          i.values = i.entry.node.fields.map
            (p.playback.bindings.resolveValue · ⟨i.sequence.id, i.nested⟩) := by
  have hp : p.Addressed := (Addressed.of_reachable hp₀).moves hmoves
  have haligned : p.playback.bindings.Aligned p.sequence := hp.aligned hroot
  refine ⟨(Bindings.reconcile_of_aligned hroot.tidy haligned).2,
    fun _ _ _ _ _ hpoll => hpoll.stays, fun q run hq hrun => ?_⟩
  obtain ⟨hsequence, hbindings⟩ := hq.keeps
  have haddressed : q.Addressed := hq.addressed hp
  have hsteady : ∀ {a : Errand H}, (Errand.step run q.playback).Leads a →
      a.playback.bindings = p.playback.bindings := by
    intro a hleads
    exact (hleads.moves trivial).1.bindings.trans hbindings
  constructor
  · intro s nested position entry parallel cx hleads
    obtain ⟨haround, hreaches, hentry⟩ := haddressed.visit hrun hleads
    rw [hsequence] at haround hreaches
    refine ⟨haround, ⟨hreaches, hentry⟩, hsteady hleads, fun d hd => ?_,
      fun _ _ _ _ _ hnode hinvoke => Context.place?_invoke hinvoke hnode⟩
    have hclaim : ⟨entry.id, d⟩ ∈ Sequence.claims s.nodes :=
      List.mem_flatMap.mpr ⟨entry, List.mem_of_getElem? hentry, List.mem_map_of_mem hd⟩
    exact haligned.governs hroot hids hreaches hclaim
  · intro fuel p' hstep
    obtain ⟨events, hhistory, hcomes⟩ := comes_of_step haddressed.consistent hrun hstep
    refine ⟨events, hhistory, fun i hi => ?_⟩
    obtain ⟨cx, hleads, heq⟩ := hcomes i hi
    have hvalues : i.values = cx.fieldValues i.entry.node ⟨i.sequence.id, i.nested⟩ :=
      congrArg Invocation.values heq
    have hbound : cx.playback.bindings = p.playback.bindings := hsteady hleads
    refine ⟨⟨cx, hleads⟩, ?_⟩
    rw [hvalues, Context.fieldValues, hbound]

open Bindings (comedy dialogue authored_comedy)

theorem reaches_comedy {r : Reached Host.none} (h : comedy.Reaches r) :
    r = ⟨comedy, .root⟩ ∨ r.sequence = dialogue := by
  induction h with
  | refl => exact .inl rfl
  | @tail r q _ hnests ih =>
      refine .inr ?_
      rcases ih with rfl | hsequence
      · rcases List.mem_pair.mp hnests with heq | heq
        · exact congrArg Prod.snd heq
        · exact congrArg Prod.snd heq
      · have hnone : dialogue.nestedSequences = [] := rfl
        rw [Reached.Nests, hsequence, hnone] at hnests
        cases hnests

theorem distinctIds_comedy : comedy.DistinctIds := by
  have hne : comedy.id ≠ dialogue.id := by decide
  intro r q hr hq hid
  rcases reaches_comedy hr with rfl | hr
  · rcases reaches_comedy hq with rfl | hq
    · rfl
    · rw [hq] at hid
      exact absurd hid hne
  · rw [hr] at hid ⊢
    rcases reaches_comedy hq with rfl | hq
    · exact absurd hid.symm hne
    · exact hq.symm

/-- A comedy whose second dialogue ends with another line. -/
def reworded : Player Host.none :=
  ((Player.new comedy).setOverride ⟨dialogue.id, ⟨.ofNat 4⟩⟩ ⟨1⟩ (.string "Farewell")).2

theorem sequence_reworded : reworded.sequence = comedy := rfl

/-- The same dialogue is played twice, under two identities: the new line is spoken the second time
only. -/
theorem overrides_addressed_comedy :
    reworded.Reachable ∧ comedy.Authored ∧ comedy.DistinctIds ∧
    reworded.reconcileBindings.1.isUnchanged = true ∧
    ∃ p', reworded.started.step 9 = some p' ∧
      (p'.playback.history.filterMap Event.invocation?).reverse.map (fun i => (i.nested, i.values))
        = [(.root, []), (⟨.ofNat 3⟩, [.string "Hello"]), (⟨.ofNat 3⟩, [.string "Goodbye"]),
          (.root, []), (⟨.ofNat 4⟩, [.string "Hello"]), (⟨.ofNat 4⟩, [.string "Farewell"])] ∧
      ∀ i, .invoked i ∈ p'.playback.history → comedy.Reaches ⟨i.sequence, i.nested⟩ ∧
        ∀ d ∈ i.entry.node.declarations,
          reworded.playback.bindings.Governs ⟨i.sequence.id, i.nested⟩ d.field := by
  have hcomputed : (reworded.started.step 9).map (fun p' =>
      (p'.playback.history.filterMap Event.invocation?).reverse.map fun i => (i.nested, i.values))
        = some [(.root, []), (⟨.ofNat 3⟩, [.string "Hello"]), (⟨.ofNat 3⟩, [.string "Goodbye"]),
          (.root, []), (⟨.ofNat 4⟩, [.string "Hello"]), (⟨.ofNat 4⟩, [.string "Farewell"])] := by
    decide +kernel
  obtain ⟨p', hstep, hinvoked⟩ := Option.map_eq_some_iff.mp hcomputed
  have hobey : (Player.new comedy).obey 0
      (.setOverride ⟨dialogue.id, ⟨.ofNat 4⟩⟩ ⟨1⟩ (.string "Farewell")) = some reworded := rfl
  have hreachable : reworded.Reachable := .obey (.new comedy {}) hobey
  have hauthored : reworded.sequence.Authored := sequence_reworded ▸ authored_comedy
  have hids : reworded.sequence.DistinctIds := sequence_reworded ▸ distinctIds_comedy
  obtain ⟨hunchanged, -, hruns⟩ := overrides_addressed hreachable .refl hauthored hids
  refine ⟨hreachable, authored_comedy, distinctIds_comedy, hunchanged, p', hstep, hinvoked,
    fun i hi => ?_⟩
  obtain ⟨hvisits, hsteps⟩ := hruns reworded.started _ (.play rfl) rfl
  obtain ⟨events, hhistory, hevents⟩ := hsteps 9 p' hstep
  have hnone : reworded.started.playback.history.all (fun e => e.invocation?.isNone) = true := by
    decide +kernel
  have hnew : .invoked i ∈ events := by
    rw [hhistory] at hi
    rcases List.mem_append.mp hi with hi | hi
    · exact hi
    · cases List.all_eq_true.mp hnone _ hi
  obtain ⟨⟨cx, hleads⟩, -⟩ := hevents i hnew
  obtain ⟨-, ⟨hreaches, -⟩, -, hgoverns, -⟩ := hvisits _ _ _ _ _ _ hleads
  exact ⟨sequence_reworded ▸ hreaches, hgoverns⟩

end Player

end Sequencer
