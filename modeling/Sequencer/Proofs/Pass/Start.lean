import Sequencer.Proofs.Pass.Branches
import Sequencer.Proofs.Pass.Once
import Sequencer.Proofs.Pass.Strides
import Sequencer.Proofs.Pass.Sweep

/-!
# Sequencer.Proofs.Pass.Start

Which nodes a parallel pass starts in its first step, if they are blocks or move the cursor ahead by
fixed distances, and whether this depends on which of them suspend.

* `Sequence.Strides`: a sequence has an arrangement of strides;
* `fork_trace`: a fork of such a sequence ends, and starts what a trace of the arrangement says;
* `FirstStep`: the first step of a parallel pass;
* `Stride.Timeless`: no two first steps start different nodes.

`parallel_start` says which arrangements are timeless, and what is started in these;
`overshoot` is a sequence of one that is not.
-/

namespace Sequencer

variable {H : Host}

/-! ### Nodes that move the cursor ahead -/

/-- A poll of this host work touches neither the cursor nor the stop flag. -/
def Host.Quiet (H : Host) (w : H.Work) : Prop :=
  ∀ around : Surroundings, around.stopRequested = false →
    (H.poll w around).1.surroundings.cursor = around.cursor ∧
      (H.poll w around).1.surroundings.stopRequested = false

/-- A node that moves the cursor ahead when it is invoked, and leaves the rest of the way to the
sequence: the first poll of its task touches neither the cursor nor the stop flag. -/
def Node.Ahead (b : Bindings) (o : Occurrence) (distance : Nat) : SequenceNode H → Prop
  | .skip count => (b.resolve count o).toInt = distance
  | .skipIf _ _ count => count = 0 ∧ distance = 0
  | .wait _ | .waitFrames _ | .waitUntil .. | .setParameter .. | .log .. => distance = 0
  | .host n => ∀ (call : Call) (around : Surroundings), around.stopRequested = false →
      0 ≤ around.cursor.index → around.cursor.index ≤ Cursor.highest →
      (H.invoke n.behavior call around).1.surroundings.cursor.index
          = min Cursor.highest (around.cursor.index + distance) ∧
        (H.invoke n.behavior call around).1.surroundings.stopRequested = false ∧
        ∀ w ∈ (H.invoke n.behavior call around).2, H.Quiet w
  | _ => False

/-- Work other than blocks and passes, whose first poll touches neither the cursor nor the stop
flag. -/
def Work.Quiet : Work H (Task H) → Prop
  | .hosted w => H.Quiet w
  | .block _ | .passes _ => False
  | _ => True

section

variable {s : Sequence H} {nested : NestedId} {distance : Nat} (cx : Context H)

/-- What such a node does at once. -/
theorem Node.Ahead.start {node : SequenceNode H}
    (h : node.Ahead cx.playback.bindings ⟨s.id, nested⟩ distance) (values : List Value)
    (hlow : 0 ≤ cx.cursor.index) (hhigh : cx.cursor.index ≤ Cursor.highest)
    (hgoes : cx.stopRequested = false) {left : Option (Work H (Task H))} {cx' : Context H}
    (heq : node.start s nested values cx = (left, cx')) :
    cx'.cursor.index = min Cursor.highest (cx.cursor.index + distance) ∧
      cx'.stopRequested = false ∧ ∀ w ∈ left, w.Quiet := by
  have hstays : distance = 0 →
      cx.cursor.index = min Cursor.highest (cx.cursor.index + distance) := by
    omega
  cases node with
  -- nodes that move the cursor
  | skip count =>
      have hcount : (cx.playback.bindings.resolve count ⟨s.id, nested⟩).toInt = distance := h
      simp only [Node.start, hcount, if_pos (Int.natCast_nonneg distance), Int.toNat_natCast] at heq
      cases heq
      exact ⟨Cursor.advance_index_eq hlow, hgoes, by simp⟩
  | skipIf parameter expected count =>
      obtain ⟨rfl, hzero⟩ := h
      simp only [Node.start] at heq
      cases heq
      refine ⟨?_, ?_, by simp⟩
      · split
        · rw [hzero]
          exact Cursor.advance_index_eq hlow
        · exact hstays hzero
      · split <;> exact hgoes
  | parallelNext | stop | nested => exact h.elim
  -- nodes that leave it alone, and perhaps a task that does
  | wait seconds =>
      simp only [Node.start] at heq
      cases heq
      refine ⟨hstays h, hgoes, ?_⟩
      split <;> simp [Work.Quiet]
  | waitFrames frames =>
      simp only [Node.start] at heq
      cases heq
      refine ⟨hstays h, hgoes, ?_⟩
      split <;> simp [Work.Quiet]
  | waitUntil parameter expected =>
      simp only [Node.start] at heq
      cases heq
      refine ⟨hstays h, hgoes, ?_⟩
      split <;> simp [Work.Quiet]
  | setParameter | log =>
      cases heq
      exact ⟨hstays h, hgoes, by simp⟩
  | host n =>
      cases heq
      obtain ⟨hcursor, hstop, hleft⟩ := h ⟨s.id, nested, values⟩ cx.surroundings hgoes hlow hhigh
      refine ⟨by simpa [Context.surroundings] using hcursor,
        (Context.absorb_stopRequested (by simp [hstop])).trans hgoes, ?_⟩
      simp only [Option.mem_def, Option.map_eq_some_iff]
      rintro _ ⟨w, hw, rfl⟩
      exact hleft w hw

/-- A poll of quiet work comes to an end. -/
theorem Work.Quiet.work {w : Work H (Task H)} (h : w.Quiet) (ticket : Nat)
    (hgoes : cx.stopRequested = false) :
    ∃ progress w' cx', (Job.work ticket w cx progress w' cx').Returns ∧
      cx.playback.Stretch [] cx'.playback ∧ cx'.cursor = cx.cursor ∧ cx'.stopRequested = false := by
  cases w with
  | untilTime => exact ⟨_, _, _, .untilTime, .refl _, rfl, hgoes⟩
  | untilFrame => exact ⟨_, _, _, .untilFrame, .refl _, rfl, hgoes⟩
  | untilParameter => exact ⟨_, _, _, .untilParameter, .refl _, rfl, hgoes⟩
  | hosted w =>
      obtain ⟨hcursor, hstop⟩ := h cx.surroundings hgoes
      exact ⟨_, _, _, .hosted rfl, cx.stretch_absorb _, (cx.absorb_cursor _).trans hcursor,
        (Context.absorb_stopRequested (by simp [hstop])).trans hgoes⟩
  | block | passes => exact h.elim

/-- So does the first poll of a task with quiet work. -/
theorem Work.Quiet.poll {task : Task H} (h : task.work.Quiet) (hgoes : cx.stopRequested = false) :
    ∃ progress task' cx', (Job.poll task cx progress task' cx').Returns ∧
      cx.playback.Stretch [] cx'.playback ∧ cx'.cursor = cx.cursor ∧ cx'.stopRequested = false := by
  have hpolled := Playback.Stretch.record cx.playback (e := .polled task.ticket) rfl
  obtain ⟨progress, w', cx', hwork, hs, hcursor, hstop⟩ :=
    h.work (cx.record (.polled task.ticket)) task.ticket hgoes
  cases progress with
  | pending => exact ⟨_, _, _, .pollPending hwork, hpolled.before hs, hcursor, hstop⟩
  | done =>
      exact ⟨_, _, _, .pollDone hwork,
        (hpolled.before hs).after (.record _ (e := .completed _) rfl), hcursor, hstop⟩

end

/-! ### Sequences of an arrangement -/

/-- A node is of a stride. -/
def Stride.Fits (b : Bindings) (o : Occurrence) : Stride → SequenceNode H → Prop
  | .block count, node => node = .parallelNext count
  | .ahead distance, node => node.Ahead b o distance

/-- The nodes of a sequence are of the strides of an arrangement. -/
structure Sequence.Strides (s : Sequence H) (nested : NestedId) (strides : List Stride)
    (b : Bindings) : Prop where
  /-- There is a stride for each node. -/
  length_eq : s.length = strides.length
  /-- Each node is of its stride. -/
  fits : ∀ {i : Nat} {stride : Stride} {entry : SequenceEntry H}, strides[i]? = some stride →
    s.nodes[i]? = some entry → stride.Fits b ⟨s.id, nested⟩ entry.node

/-- Whether the nodes that are no blocks suspend at this time is within `mode`. -/
def Sequence.Suspends (s : Sequence H) (nested : NestedId) (strides : List Stride) (clock : Clock)
    (mode : Bool → Prop) : Prop :=
  ∀ ⦃p distance : Nat⦄ ⦃entry : SequenceEntry H⦄ ⦃cx cx' : Context H⦄ ⦃outcome : Outcome H⦄,
    strides[p]? = some (.ahead distance) → s.nodes[p]? = some entry →
    cx.playback.clock = clock → (Job.visit s nested p entry true cx outcome cx').Returns →
    mode !outcome.isDone

theorem Sequence.suspends_any (s : Sequence H) (nested : NestedId) (strides : List Stride)
    (clock : Clock) : s.Suspends nested strides clock fun _ => True :=
  fun _ _ _ _ _ _ _ _ _ _ => trivial

/-- The visit of the node at `p` starts this and the given positions behind it, tells whether it is
pending, and the fork goes on at `next`. -/
structure VisitsAs (s : Sequence H) (strides : List Stride) (mode : Bool → Prop) (p : Nat)
    (is : List (Invocation H)) (outcome : Outcome H) (cx' : Context H) (positions : List Nat)
    (next : Nat) : Prop where
  /-- These are started. -/
  invokes : ∀ q, Invokes s is q ↔ q = p ∨ q ∈ positions
  /-- The cursor is in front of where the fork goes on. -/
  cursor : cx'.cursor.index + 1 = next
  /-- The fork makes progress. -/
  lt : p < next
  /-- No stop is requested. -/
  goes : cx'.stopRequested = false
  /-- What a trace from there is as part of one from here. -/
  trace : ∀ {stop last : Nat} {pending : Bool} {positions' : List Nat}, p < stop →
    Stride.Trace strides mode stop (min next strides.length) positions' pending last →
    Stride.Trace strides mode stop p (p :: (positions ++ positions')) (!outcome.isDone || pending)
      last

section

variable {b : Bindings} {s : Sequence H} {nested : NestedId} {strides : List Stride} {clock : Clock}
  {mode : Bool → Prop} {p : Nat} {entry : SequenceEntry H} {cx : Context H}

/-- A node that is no block leaves a task or none, and the fork goes on where its stride leads. -/
theorem visitsAs_ahead (hmax : (strides.length : Int) ≤ Cursor.highest)
    (hsuspends : s.Suspends nested strides clock mode) {distance : Nat}
    (hstride : strides[p]? = some (.ahead distance)) (hentry : s.nodes[p]? = some entry)
    (hclock : cx.playback.clock = clock) {outcome : Outcome H} {cx' : Context H}
    (hvisit : (Job.visit s nested p entry true cx outcome cx').Returns)
    (hcursor : cx'.cursor.index = min Cursor.highest (p + distance : Int))
    (hgoes : cx'.stopRequested = false) :
    ∃ next,
      VisitsAs s strides mode p [cx.invocation s nested p entry true] outcome cx' [] next := by
  have hlen : p < strides.length := (List.getElem?_eq_some_iff.mp hstride).1
  have hmode := hsuspends hstride hentry hclock hvisit
  refine ⟨(cx'.cursor.index + 1).toNat, fun q => ?_, by omega, by omega, hgoes,
    fun hlt htrace => ?_⟩
  · simpa using invokes_single cx s nested p entry true q
  · have hbehind : min (cx'.cursor.index + 1).toNat strides.length = Stride.behind strides p := by
      rw [Stride.behind_of_ahead hstride]
      omega
    rw [hbehind] at htrace
    exact .ahead hlt hstride hmode htrace

/-- The visit of a node that is no block. -/
theorem visit_ahead (hmax : (strides.length : Int) ≤ Cursor.highest)
    (hsuspends : s.Suspends nested strides clock mode) {distance : Nat}
    (hstride : strides[p]? = some (.ahead distance)) (hentry : s.nodes[p]? = some entry)
    (hnode : entry.node.Ahead b ⟨s.id, nested⟩ distance) (hb : cx.playback.bindings = b)
    (hclock : cx.playback.clock = clock) (hcursor : cx.cursor.index = p)
    (hgoes : cx.stopRequested = false) :
    ∃ outcome cx' is positions next,
      (Job.visit s nested p entry true cx outcome cx').Returns ∧
      cx.playback.Stretch is cx'.playback ∧
      VisitsAs s strides mode p is outcome cx' positions next := by
  have hlen : p < strides.length := (List.getElem?_eq_some_iff.mp hstride).1
  subst hb
  let called := cx.record (.invoked (cx.invocation s nested p entry true))
  obtain ⟨left, cx₁, hstart⟩ : ∃ left cx₁, entry.node.start s nested
      (cx.fieldValues entry.node ⟨s.id, nested⟩) called = (left, cx₁) := ⟨_, _, rfl⟩
  have hindex : called.cursor.index = p := hcursor
  obtain ⟨hcursor₁, hgoes₁, hquiet⟩ := Node.Ahead.start called hnode _ (by omega) (by omega)
    hgoes hstart
  rw [hindex] at hcursor₁
  cases left with
  | none =>
      have hinvoke := Context.invoke_of_none hstart
      have hvisit := Job.Returns.visitFinished hinvoke
      obtain ⟨next, hvisits⟩ :=
        visitsAs_ahead hmax hsuspends hstride hentry hclock hvisit hcursor₁ hgoes₁
      exact ⟨_, _, _, _, next, hvisit, Context.stretch_invoke hinvoke, hvisits⟩
  | some work =>
      have hinvoke := Context.invoke_of_some hstart
      have hs := Context.stretch_invoke hinvoke
      obtain ⟨progress, task', cx₂, hpoll, hpolled, hcursor₂, hgoes₂⟩ :=
        Work.Quiet.poll (cx₁.launch work).2
          (show (cx₁.launch work).1.work.Quiet from hquiet work rfl) hgoes₁
      have hcursor₂ : cx₂.cursor.index = min Cursor.highest (p + distance : Int) :=
        hcursor₂ ▸ hcursor₁
      cases progress with
      | pending =>
          have hvisit := Job.Returns.visitPending hinvoke hpoll
          obtain ⟨next, hvisits⟩ :=
            visitsAs_ahead hmax hsuspends hstride hentry hclock hvisit hcursor₂ hgoes₂
          exact ⟨_, _, _, _, next, hvisit, hs.after hpolled, hvisits⟩
      | done =>
          have hvisit := Job.Returns.visitDone hinvoke hpoll
          obtain ⟨next, hvisits⟩ := visitsAs_ahead hmax hsuspends hstride hentry hclock hvisit
            hcursor₂ ((Playback.abandon_stopRequested _ _).trans hgoes₂)
          exact ⟨_, _, _, _, next, hvisit,
            (hs.after hpolled).after (Context.stretch_release _ _), hvisits⟩

/-- A fork ends, and starts what a trace of the arrangement says. -/
def ForkTraces (s : Sequence H) (nested : NestedId) (strides : List Stride) (mode : Bool → Prop)
    (b : Bindings) (clock : Clock) (next : Nat) : Prop :=
  ∀ ⦃stop : Nat⦄ ⦃join : Join (Task H)⦄ ⦃cx : Context H⦄, stop ≤ s.length →
    cx.playback.bindings = b → cx.playback.clock = clock → cx.stopRequested = false →
    (stop ≤ next → min (cx.cursor.index + 1) s.length = min next s.length) → join.Balanced →
    ∃ join' cx' is positions pending last,
      (Job.fork s nested (s.span next stop) next join cx join' cx').Returns ∧
      cx.playback.Stretch is cx'.playback ∧ (∀ p, Invokes s is p ↔ p ∈ positions) ∧
      Stride.Trace strides mode stop (min next s.length) positions pending last ∧
      cx'.stopRequested = false ∧ min (cx'.cursor.index + 1) s.length = last ∧
      join'.Balanced ∧ (join'.branches = [] ↔ join.branches = [] ∧ pending = false)

/-- The visit of a block, if the forks behind its node end. -/
theorem visit_enclosing (hmax : (strides.length : Int) ≤ Cursor.highest)
    (hlength : s.length = strides.length)
    (hfork : ForkTraces s nested strides mode b clock (p + 1)) {count : Nat}
    (hstride : strides[p]? = some (.block count)) (hnode : entry.node = .parallelNext count)
    (hb : cx.playback.bindings = b) (hclock : cx.playback.clock = clock)
    (hcursor : cx.cursor.index = p) (hgoes : cx.stopRequested = false) :
    ∃ outcome cx' is positions next,
      (Job.visit s nested p entry true cx outcome cx').Returns ∧
      cx.playback.Stretch is cx'.playback ∧
      VisitsAs s strides mode p is outcome cx' positions next := by
  have hlen : p < strides.length := (List.getElem?_eq_some_iff.mp hstride).1
  have hend : Stride.reach strides p ≤ s.length := hlength ▸ Stride.reach_le hlen
  have hstop : min (p + 1 + count) s.length = Stride.reach strides p := by
    rw [Stride.reach_of_block hstride, hlength]
  have hbehind := Stride.lt_reach strides p
  by_cases hlt : p + 1 < Stride.reach strides p
  · -- a block that claims nodes: its own fork starts them, in the first poll of its task
    have hentered := cx.stretch_entered s nested p entry true (Stride.reach strides p)
    obtain ⟨join, cx₁, is, positions, pending, last, hreturns, hs, hinvokes, htrace, hgoes₁,
        hcursor₁, hbalanced, hleft⟩ :=
      @hfork _ {} (cx.entered s nested p entry true (Stride.reach strides p)) hend
        (hentered.bindings.trans hb) (hentered.clock.trans hclock) hgoes (fun hle => by omega) rfl
    have hdone : join.isDone = true ↔ pending = false :=
      hbalanced.isDone_iff.trans (hleft.trans (and_iff_right rfl))
    have hown : ∀ q, Invokes s (is ++ [cx.invocation s nested p entry true]) q ↔
        q = p ∨ q ∈ positions := by
      intro q
      rw [invokes_append, invokes_single, hinvokes q]
    rw [show min (p + 1) s.length = p + 1 by omega] at htrace
    have hstopped := htrace.stop_le
    cases pending with
    -- the block is done at once, and moves the cursor to its last node
    | false =>
        have hvisit := hreturns.visit_done_of_fork hnode hcursor hstop hlt (hdone.mpr rfl)
        refine ⟨_, _, _, positions, Stride.reach strides p, hvisit, ?_, hown, ?_, hbehind, ?_, ?_⟩
        · have hcompleted := Playback.Stretch.record cx₁.playback
            (e := .completed cx.playback.nextTicket) rfl
          exact (hentered.trans hs).after
            (hcompleted.after (Context.stretch_release ((cx₁.moveTo _).record _) _))
        · have hmoved : (cx₁.moveTo (Stride.reach strides p - 1)).cursor.index
              = (Stride.reach strides p - 1 : Nat) := Cursor.set_index cx₁.cursor (by omega)
          simp only [Context.release_cursor, Context.record_cursor, hmoved]
          omega
        · exact (Playback.abandon_stopRequested _ _).trans hgoes₁
        · intro stop last' pending' positions' hlt' hrest
          rw [Nat.min_eq_left (hlength ▸ hend)] at hrest
          exact .block hlt' hstride htrace hrest
    -- the block is suspended, and the cursor stays where its last node has moved it
    | true =>
        have hnot : join.isDone = false :=
          Bool.eq_false_iff.mpr fun h => absurd (hdone.mp h) (by simp)
        have hvisit := hreturns.visit_pending_of_fork hnode hcursor hstop hlt hnot
        refine ⟨_, _, _, positions, (cx₁.cursor.index + 1).toNat, hvisit, hentered.trans hs, hown,
          by omega, by omega, hgoes₁, ?_⟩
        intro stop last' pending' positions' hlt' hrest
        have hlast : min (cx₁.cursor.index + 1).toNat strides.length = last := by omega
        rw [hlast] at hrest
        exact .block hlt' hstride htrace hrest
  · -- a block of no nodes
    have hinvoke := Context.invoke_parallelNext (s := s) hnode hcursor nested true
    rw [hstop] at hinvoke
    simp only [if_neg hlt] at hinvoke
    have hreach : Stride.reach strides p = p + 1 := by omega
    refine ⟨_, _, _, [], p + 1, .visitFinished hinvoke, Context.stretch_invoke hinvoke,
      fun q => by simpa using invokes_single cx s nested p entry true q, ?_, Nat.lt_succ_self p,
      hgoes, ?_⟩
    · rw [Context.record_cursor, hcursor]
      rfl
    · intro stop last' pending' positions' hlt' hrest
      rw [show min (p + 1) strides.length = Stride.reach strides p by omega] at hrest
      exact .block hlt' hstride (.ended (Nat.le_of_eq hreach)) hrest

/-- **Forks as traces.** Each fork over a sequence of an arrangement ends, starts what a trace of
the arrangement says, and leaves the cursor in front of where the trace goes on. The induction is on
the number of nodes left. -/
theorem fork_traces (hmax : (strides.length : Int) ≤ Cursor.highest)
    (hs : s.Strides nested strides b) (hsuspends : s.Suspends nested strides clock mode)
    (next : Nat) : ForkTraces s nested strides mode b clock next := by
  induction hn : s.length - next using Nat.strongRecOn generalizing next with
  | _ n ih =>
      intro stop join cx hstop hb hclock hgoes hcursor hbalanced
      have hlength := hs.length_eq
      by_cases hlt : next < stop
      · have hlen : next < s.length := by omega
        obtain ⟨entry, hentry⟩ := Sequence.exists_entry hlen
        obtain ⟨stride, hstride⟩ : ∃ stride, strides[next]? = some stride :=
          ⟨_, List.getElem?_eq_getElem (hlength ▸ hlen)⟩
        have hfit := hs.fits hstride hentry
        have hmoved : (cx.moveTo next).cursor.index = next :=
          Cursor.set_index cx.cursor (by omega)
        obtain ⟨outcome, cx₁, is, positions, next₁, hvisit, hs₁, hvisits⟩ :
            ∃ outcome cx' is positions next₁,
              (Job.visit s nested next entry true (cx.moveTo next) outcome cx').Returns ∧
              cx.playback.Stretch is cx'.playback ∧
              VisitsAs s strides mode next is outcome cx' positions next₁ := by
          cases stride with
          | block count =>
              exact visit_enclosing hmax hlength (ih _ (by omega) (next + 1) rfl) hstride hfit hb
                hclock hmoved hgoes
          | ahead distance =>
              exact visit_ahead hmax hsuspends hstride hentry hfit hb hclock hmoved hgoes
        have hnext := hvisits.lt
        have hplace := hvisits.cursor
        obtain ⟨join', cx', is', positions', pending, last, hrest, hs₂, hinvokes, htrace, hgoes',
            hcursor', hbalanced', hleft⟩ :=
          ih (s.length - next₁) (by omega) next₁ rfl hstop (hs₁.bindings.trans hb)
            (hs₁.clock.trans hclock) hvisits.goes (fun _ => by omega) (hbalanced.count outcome)
        refine ⟨join', cx', is' ++ is, next :: (positions ++ positions'),
          !outcome.isDone || pending, last, ?_, hs₁.trans hs₂, fun q => ?_, ?_, hgoes', hcursor',
          hbalanced', ?_⟩
        · rw [Sequence.span_cons hlt hentry]
          refine .forkNext (Nat.le_refl next) hgoes hvisit ?_
          rw [Context.nextBranch_eq hnext hplace]
          exact .fork_past hnext hstop hrest
        · rw [invokes_append, hvisits.invokes q, hinvokes q, List.mem_cons, List.mem_append,
            or_assoc]
        · rw [Nat.min_eq_left (Nat.le_of_lt hlen)]
          exact hvisits.trace hlt (hlength ▸ htrace)
        · rw [hleft, Join.count_branches]
          cases outcome <;> simp [Outcome.tasks, Outcome.isDone]
      · rw [Sequence.span_of_le s (by omega)]
        exact ⟨join, cx, [], [], false, min next s.length, .forkEnd, .refl _,
          fun q => by simp [Invokes], .ended (by omega), hgoes, hcursor (by omega), hbalanced,
          by simp⟩

end

/-! ### The first step -/

/-- The first step of a parallel pass over a sequence of an arrangement, and the invocations in
it. No stop has been requested before. -/
structure FirstStep (strides : List Stride) (s : Sequence H) (nested : NestedId) (pb : Playback H)
    (is : List (Invocation H)) : Prop where
  /-- All nodes run at once. -/
  parallel : s.parallel = true
  /-- The sequence has the arrangement. -/
  fits : s.Strides nested strides pb.bindings
  /-- No stop is requested. -/
  goes : pb.stopRequested = false
  /-- The step ends. -/
  returns : ∃ progress run pb', (Job.step (.new s nested) pb progress run pb').Returns ∧
    pb.Stretch is pb'

section

variable {strides : List Stride} {s : Sequence H} {nested : NestedId} {pb : Playback H}
  {is is' : List (Invocation H)}

theorem FirstStep.unique (h : FirstStep strides s nested pb is)
    (h' : FirstStep strides s nested pb is') : is = is' := by
  obtain ⟨_, _, pb₁, hstep, hs⟩ := h.returns
  obtain ⟨_, _, pb₂, hstep', hs'⟩ := h'.returns
  obtain ⟨-, -, rfl⟩ := hstep.step_unique hstep'
  obtain ⟨events, hhistory, his, -⟩ := hs.history
  exact his.symm.trans (hs'.filterMap_eq hhistory)

/-- The first step ends, and starts what a trace of the arrangement says. -/
theorem exists_firstStep (hmax : (strides.length : Int) ≤ Cursor.highest)
    (hparallel : s.parallel = true) (hfits : s.Strides nested strides pb.bindings)
    (hgoes : pb.stopRequested = false) {mode : Bool → Prop}
    (hsuspends : s.Suspends nested strides pb.clock mode) :
    ∃ is positions pending last, FirstStep strides s nested pb is ∧
      (∀ p, Invokes s is p ↔ p ∈ positions) ∧
      Stride.Trace strides mode strides.length 0 positions pending last := by
  have hindex : (⟨.start, pb⟩ : Context H).cursor.index = 0 := rfl
  obtain ⟨join, cx, is, positions, pending, last, hfork, hs, hinvokes, htrace, -⟩ :=
    @fork_traces H _ s nested strides _ mode hmax hfits hsuspends 0 s.length {} ⟨.start, pb⟩
      (Nat.le_refl _) rfl rfl hgoes (fun _ => by omega) rfl
  obtain ⟨progress, run, hstep⟩ := hfork.step_of_fork hparallel
  rw [Nat.zero_min, hfits.length_eq] at htrace
  exact ⟨is, positions, pending, last, ⟨hparallel, hfits, hgoes, _, _, _, hstep, hs⟩, hinvokes,
    htrace⟩

end

namespace Stride

/-- What the first step of a pass starts does not depend on the time, which may decide which of the
nodes suspend. -/
def Timeless (strides : List Stride) : Prop :=
  ∀ (H : Host) (s : Sequence H) (nested : NestedId) (pb : Playback H) (clock : Clock)
    (is is' : List (Invocation H)), FirstStep strides s nested pb is →
    FirstStep strides s nested { pb with clock } is' → ∀ p, Invokes s is p ↔ Invokes s is' p

end Stride

/-! ### Samples -/

/-- A host with nodes that move the cursor ahead and leave a task, which is done unless it is polled
in the first frame. -/
def Host.pacing : Host where
  Behavior := Nat
  Work := Unit
  Note := Empty
  invoke distance _ around :=
    (⟨{ around with cursor := around.cursor.advance distance }, []⟩, some ())
  poll _ around := (⟨around, []⟩, .doneIf (around.clock.frame != 0), ())

namespace Stride

/-- A node of each stride. -/
def sample : Stride → SequenceNode Host.pacing
  | .block count => .parallelNext count
  | .ahead distance => .host { kind := "Pace", behavior := distance }

/-- A parallel sequence of the arrangement. -/
def samples (strides : List Stride) : Sequence Host.pacing where
  id := ⟨.nil⟩
  name := "Sample"
  parallel := true
  nodes := strides.mapIdx fun i stride => .new ⟨.ofNat i⟩ stride.sample

variable {strides : List Stride}

theorem samples_node {p : Nat} {stride : Stride} {entry : SequenceEntry Host.pacing}
    (hstride : strides[p]? = some stride) (hentry : (samples strides).nodes[p]? = some entry) :
    entry.node = stride.sample := by
  simp only [samples, List.getElem?_mapIdx, hstride, Option.map_some, Option.some.injEq] at hentry
  rw [← hentry, Entry.new]

theorem samples_strides (b : Bindings) : (samples strides).Strides .root strides b where
  length_eq := by simp [samples, Sequence.length]
  fits := by
    intro i stride entry hstride hentry
    rw [samples_node hstride hentry]
    cases stride with
    | block count => rfl
    | ahead distance =>
        intro call around hgoes hlow hhigh
        exact ⟨Cursor.advance_index_eq hlow, hgoes, fun w _ around hgoes => ⟨rfl, hgoes⟩⟩

/-- In the first frame all nodes of a sample suspend but blocks, and later none. -/
theorem samples_suspends (clock : Clock) :
    (samples strides).Suspends .root strides clock (· = (clock.frame == 0)) := by
  intro p distance entry cx cx' outcome hstride hentry hclock hvisit
  have hnode := samples_node hstride hentry
  have hpoll : ∀ {task task' : Task Host.pacing} {cx₁ cx₂ : Context Host.pacing}
      {progress : Progress}, cx.invoke (samples strides) .root p entry true = (some task, cx₁) →
      (Job.poll task cx₁ progress task' cx₂).Returns → progress = .doneIf (clock.frame != 0) := by
    intro task task' cx₁ cx₂ progress hinvoke hpoll
    have hclock₁ := (Context.stretch_invoke hinvoke).clock.trans hclock
    obtain ⟨work, cx₃, hstart, rfl, -⟩ := Context.invoke_some hinvoke
    rw [hnode] at hstart
    cases hstart
    obtain ⟨_, _, hwork, -, -⟩ := hpoll.poll_inv
    cases hwork with
    | hosted heq =>
        cases heq
        rw [← hclock₁]
        rfl
  cases hvisit with
  | visitFinished hinvoke =>
      have hstart := Context.invoke_none hinvoke
      rw [hnode] at hstart
      cases hstart
  | visitDone hinvoke hpolled =>
      have hdone := Progress.doneIf_eq_done.mp (hpoll hinvoke hpolled).symm
      simpa [Outcome.isDone] using hdone
  | visitPending hinvoke hpolled =>
      have hpending : (clock.frame != 0) = false :=
        Bool.eq_false_iff.mpr fun h => absurd (hpoll hinvoke hpolled) (by simp [h, Progress.doneIf])
      simpa [Outcome.isDone] using hpending

/-- If everything suspends but blocks, the path is started. -/
theorem samples_path (hmax : (strides.length : Int) ≤ Cursor.highest) :
    ∃ is, FirstStep strides (samples strides) .root {} is ∧
      ∀ p, Invokes (samples strides) is p ↔ OnPath strides p ∧ p < strides.length := by
  obtain ⟨is, positions, pending, last, hfirst, hinvokes, htrace⟩ :=
    exists_firstStep hmax rfl (samples_strides _) rfl (samples_suspends (({} : Playback _).clock))
  refine ⟨is, hfirst, fun p => (hinvokes p).trans (htrace.mem_iff ?_ p)⟩
  intro i count positions inner hi hblock hinner
  have hnext := hi.next (List.getElem?_eq_some_iff.mp hblock).1
  rw [behind_of_block hblock] at hnext
  exact hinner.path_of_idle (fun suspends h => h.trans rfl) rfl hnext _ (lt_reach _ i)
    (Nat.le_refl _)

/-- A timeless arrangement without overlapping blocks is enclosed. -/
theorem Timeless.enclosed (hmax : (strides.length : Int) ≤ Cursor.highest)
    (hlaminar : Laminar strides) (h : Timeless strides) : Enclosed strides := by
  obtain ⟨is, hfirst, hpath⟩ := samples_path hmax
  let later : Clock := { frame := 1 }
  obtain ⟨is', positions, pending, last, hfirst', hinvokes, htrace⟩ :=
    @exists_firstStep _ strides (samples strides) .root { clock := later } hmax rfl
      (samples_strides _) rfl _ (samples_suspends later)
  refine enclosed_of_trace hlaminar (fun suspends h => h.trans rfl) htrace fun p hp => ?_
  exact ((hpath p).mp ((h _ _ _ _ later _ _ hfirst hfirst' p).mpr ((hinvokes p).mpr hp))).1

end Stride

open Stride

/-- In an enclosed arrangement the path is started, whatever suspends. -/
theorem FirstStep.invokes_iff {strides : List Stride}
    (hmax : (strides.length : Int) ≤ Cursor.highest) (henclosed : Enclosed strides)
    {s : Sequence H} {nested : NestedId} {pb : Playback H} {is : List (Invocation H)}
    (h : FirstStep strides s nested pb is) (p : Nat) :
    Invokes s is p ↔ OnPath strides p ∧ p < strides.length := by
  obtain ⟨is', positions, pending, last, hfirst, hinvokes, htrace⟩ :=
    exists_firstStep hmax h.parallel h.fits h.goes (s.suspends_any nested strides _)
  obtain rfl := h.unique hfirst
  exact (hinvokes p).trans
    (htrace.mem_iff (fun i count _ _ hi hblock _ => enclosed_iff.mp henclosed i count hi hblock) p)

/-- **What a parallel sequence starts.** The first step of a pass over a sequence of these strides
ends, whatever of it suspends. If no node on the path leads out of a block on the path, each such
step starts exactly the nodes on the path. Unless blocks overlap, this is the only case in which no
two first steps start different nodes: otherwise a block that is suspended leaves the cursor where
its last node has moved it, while one that is done at once goes back to its end. -/
theorem parallel_start (strides : List Stride) (hmax : (strides.length : Int) ≤ Cursor.highest) :
    (∀ (H : Host) (s : Sequence H) (nested : NestedId) (pb : Playback H), s.parallel = true →
        s.Strides nested strides pb.bindings → pb.stopRequested = false →
        ∃ is, FirstStep strides s nested pb is) ∧
      (Enclosed strides → ∀ (H : Host) (s : Sequence H) (nested : NestedId) (pb : Playback H)
        (is : List (Invocation H)), FirstStep strides s nested pb is →
        ∀ p, Invokes s is p ↔ OnPath strides p ∧ p < strides.length) ∧
      (Laminar strides → (Timeless strides ↔ Enclosed strides)) := by
  refine ⟨fun H s nested pb hparallel hfits hgoes => ?_,
    fun henclosed H s nested pb is hfirst => hfirst.invokes_iff hmax henclosed,
    fun hlaminar => ⟨fun h => h.enclosed hmax hlaminar, fun henclosed => ?_⟩⟩
  · obtain ⟨is, _, _, _, hfirst, -⟩ :=
      exists_firstStep hmax hparallel hfits hgoes (s.suspends_any nested strides _)
    exact ⟨is, hfirst⟩
  · intro H s nested pb clock is is' hfirst hfirst' p
    exact (hfirst.invokes_iff hmax henclosed p).trans (hfirst'.invokes_iff hmax henclosed p).symm

/-- A block over a node and a skip that leads past the end of the block. -/
theorem parallel_start_overshoot :
    ([.block 2, .ahead 0, .ahead 1, .ahead 0] : List Stride).length ≤ Cursor.highest ∧
      ¬ Timeless [.block 2, .ahead 0, .ahead 1, .ahead 0] := by
  refine ⟨by decide, fun htimeless => ?_⟩
  have henclosed := ((parallel_start [.block 2, .ahead 0, .ahead 1, .ahead 0] (by decide)).2.2
    (by decide)).mp htimeless
  have hblock : OnPath [.block 2, .ahead 0, .ahead 1, .ahead 0] 1 := OnPath.next .refl (by decide)
  have hskip : OnPath [.block 2, .ahead 0, .ahead 1, .ahead 0] 2 := hblock.next (by decide)
  exact absurd (henclosed 0 2 .refl hskip (by decide) (by decide)) (by decide)

/-- A host with nodes that leave a task, which is done when a parameter is true and which touches
nothing. -/
def Host.releasing : Host where
  Behavior := String
  Work := String
  Note := Empty
  invoke parameter _ around := (⟨around, []⟩, some parameter)
  poll parameter around :=
    (⟨around, []⟩, .doneIf (around.parameters.getD Bool parameter), parameter)

/-- A sequence of this arrangement: a block over a hold and a skip of one node, with a line of the
log behind it. -/
def overshoot : Sequence Host.releasing where
  id := ⟨.ofNat 1⟩
  name := "overshoot"
  parallel := true
  nodes := [.new ⟨.ofNat 1⟩ (.parallelNext 2),
    .new ⟨.ofNat 2⟩ (.host { kind := "Hold", behavior := "release" }),
    .new ⟨.ofNat 3⟩ (.skip (.new 1)), .new ⟨.ofNat 4⟩ (.log (.new "b") .info)]

/-- What happens there: the node behind the block is started if the hold is done on its first poll,
and passed over if it is suspended. -/
theorem overshoot_invocations :
    let invoked (parameters : Parameters) :=
      ((Run.new overshoot .root).step (Task.poll 9) 9 { parameters }).map fun stepped =>
        (stepped.2.2.history.filterMap Event.invocation?).reverse.map (·.position)
    invoked (Parameters.empty.setAs "release" true) = some [0, 1, 2, 3] ∧
      invoked .empty = some [0, 1, 2] := by
  decide +kernel

end Sequencer
