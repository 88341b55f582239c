import Sequencer.Proofs.Pass.Once
import Sequencer.Proofs.Pass.Sweep

/-!
# Sequencer.Proofs.Pass.Repeat

The arrangements in which a pass invokes no position twice, exactly.

`Proofs/Pass/Once.lean` shows that a laminar arrangement is enough, for a parallel pass together
with blocks that do not end with a free node. Here is why neither condition can be left out. For
each other arrangement there is a sequence, in the simplest case with nodes that are all finished at
once, whose very first step invokes a position twice:

* where a block reaches past the end of a block around it, the enclosing block goes back to its own
  last node when it is joined, and what follows was invoked by the inner one already;
* where the last node of a suspended block has moved the cursor back, the fork around it goes on
  inside of the block.
-/

namespace Sequencer

/-! ### Samples -/

/-- A host with one node, which moves the cursor to the start and leaves work without end. -/
def Host.rewinding : Host where
  Behavior := Unit
  Work := Unit
  Note := Empty
  invoke _ _ around := (⟨{ around with cursor := .start }, []⟩, some ())
  poll _ around := (⟨around, []⟩, .pending, ())

namespace Shape

/-- A node of each shape. A free node may be chosen to rewind. -/
def sample (rewinds : Bool) : Shape → SequenceNode Host.rewinding
  | .block count => .parallelNext count
  | .steady => .waitFrames 0
  | .free => if rewinds then .host { kind := "Rewind", behavior := () } else .waitFrames 0

/-- A sequence of the arrangement. If the node at `q` is free, it rewinds. -/
def samples (shapes : List Shape) (parallel : Bool) (q : Nat) : Sequence Host.rewinding where
  id := ⟨.nil⟩
  name := "Sample"
  parallel := parallel
  nodes := shapes.mapIdx fun i shape => .new ⟨.ofNat i⟩ (shape.sample (i == q))

variable {shapes : List Shape} {parallel : Bool} {q : Nat}

@[simp] theorem samples_length : (samples shapes parallel q).length = shapes.length := by
  simp [samples, Sequence.length]

/-- The node at a position of a sample. -/
theorem samples_node {p : Nat} {shape : Shape} {entry : SequenceEntry Host.rewinding}
    (hshape : shapes[p]? = some shape)
    (hentry : (samples shapes parallel q).nodes[p]? = some entry) :
    entry.node = shape.sample (p == q) := by
  simp only [samples, List.getElem?_mapIdx, hshape, Option.map_some, Option.some.injEq] at hentry
  rw [← hentry, Entry.new]

theorem samples_fits (nested : NestedId) (b : Bindings) :
    (samples shapes parallel q).Fits nested shapes b where
  length_eq := samples_length
  fits := by
    intro i shape entry hshape hentry
    rw [samples_node hshape hentry]
    cases shape with
    | block count => rfl
    | steady => trivial
    | free =>
        intro count
        simp only [sample]
        split <;> simp

/-- Away from the chosen node a sample is plain. -/
theorem samples_plain {low bound : Nat} (hbound : bound ≤ shapes.length)
    (hq : ∀ i, low ≤ i → i < bound → i ≠ q)
    (hreach : ∀ i, low ≤ i → i < bound → reach shapes i ≤ bound) :
    (samples shapes parallel q).PlainBetween shapes low bound where
  length_eq := samples_length
  bound_le := by rwa [samples_length]
  reach_le := fun hi hi' => hreach _ hi hi'
  plain := by
    intro i entry hi hi' hentry
    have hshape : shapes[i]? = some shapes[i] := List.getElem?_eq_getElem (by omega)
    have hne : (i == q) = false := beq_eq_false_iff_ne.mpr (hq i hi hi')
    rw [samples_node hshape hentry, hshape, hne]
    cases shapes[i] with
    | block | steady | free => rfl

end Shape

/-! ### Overlapping blocks -/

/-- A sweep over the whole list invokes a position twice, unless the arrangement is laminar. -/
theorem Sweeps.not_atMostOnce {H : Host} {s : Sequence H} {shapes : List Shape}
    {is : List (Invocation H)} (h : Sweeps s shapes 0 shapes.length is)
    (hnot : ¬ Shape.Laminar shapes) : ¬ AtMostOnce s is := by
  simp only [Shape.Laminar, Classical.not_forall, Nat.not_le] at hnot
  obtain ⟨i, hi, j, hj, hij, hlt⟩ := hnot
  refine (h.overlap i j (Nat.zero_le i) hi hij hj hlt).resolve_left ?_
  rintro ⟨k, hk, -, hpos⟩
  exact Nat.lt_irrefl _ (hpos ▸ h.within k hk)

section

variable {H : Host} {s : Sequence H} {nested : NestedId} {B : Bindings → Prop} {pb : Playback H}
  {cx : Context H} {is : List (Invocation H)}

/-- A first step, as the start of a pass. -/
theorem Pass.of_step {pb' : Playback H} {progress : Progress} {run : SequenceRun H}
    (h : (Job.step (.new s nested) pb progress run pb').Returns) (hB : B pb.bindings)
    (hs : pb.Stretch is pb') : Pass s nested B run is := by
  obtain ⟨bound, hbound⟩ := h.computes
  obtain ⟨events, hhistory, his, -⟩ := hs.history
  have hpass := Pass.step .start hB (hbound bound (Nat.le_refl bound)) hhistory
  rwa [his, List.append_nil] at hpass

/-- The fork over all nodes, as the start of a parallel pass. -/
theorem Pass.of_fork (hpar : s.parallel = true) {join : Join (Task H)}
    (h : (Job.fork s nested (s.span 0 s.length) 0 {} ⟨.start, pb⟩ join cx).Returns)
    (hB : B pb.bindings) (hs : pb.Stretch is cx.playback) : ∃ run, Pass s nested B run is := by
  obtain ⟨progress, run, hstep⟩ := h.step_of_fork hpar
  exact ⟨run, Pass.of_step hstep hB hs⟩

/-- The walk from the first node, as the start of a sequential pass. -/
theorem Pass.of_walk (hseq : s.parallel = false) {progress : Progress}
    {current : Option (Task H)}
    (h : (Job.walk s nested ⟨.start, pb⟩ progress current cx).Returns)
    (hB : B pb.bindings) (hs : pb.Stretch is cx.playback) : ∃ run, Pass s nested B run is := by
  have hnew : (.new s nested : SequenceRun H) = ⟨s, nested, .start, .sequential none⟩ := by
    simp [Run.new, hseq]
  have hstep := Job.Returns.stepSequential (.resumeWalk h)
  rw [← hnew] at hstep
  exact ⟨_, Pass.of_step hstep hB hs⟩

end

section

variable {shapes : List Shape} {q : Nat}

/-- A parallel pass over plain nodes in overlapping blocks. -/
theorem parallel_repeats (hmax : (shapes.length : Int) ≤ Cursor.highest)
    (hnot : ¬ Shape.Laminar shapes) :
    ∃ (s : Sequence Host.rewinding) (run : SequenceRun Host.rewinding)
      (is : List (Invocation Host.rewinding)), s.parallel = true ∧
      Pass s .root (s.Fits .root shapes) run is ∧ ¬ AtMostOnce s is := by
  let s := Shape.samples shapes true shapes.length
  have hlen : s.length = shapes.length := Shape.samples_length
  have hplain : s.PlainBetween shapes 0 shapes.length :=
    Shape.samples_plain (Nat.le_refl _) (fun i _ hi => Nat.ne_of_lt hi)
      (fun i _ hi => Shape.reach_le hi)
  have hsweep := sweep (hlen ▸ hmax) hplain .root (Nat.le_refl 0) (Nat.zero_le _)
  obtain ⟨u, join, cx, is, -, hu, -, hs, hsweeps, -, -, hfork⟩ :=
    hsweep _ (Nat.le_refl _) {} ⟨.start, {}⟩ rfl rfl
  have hended := hfork s.length (Nat.le_of_eq hlen.symm) (Nat.le_refl _) join cx (by
    rw [Sequence.span_of_le _ (by omega)]
    exact .forkEnd)
  obtain ⟨run, hpass⟩ := Pass.of_fork rfl hended (Shape.samples_fits .root _) hs
  exact ⟨s, run, is, rfl, hpass, hsweeps.not_atMostOnce hnot⟩

/-- A sequential pass over plain nodes in overlapping blocks. -/
theorem sequential_repeats (hmax : (shapes.length : Int) ≤ Cursor.highest)
    (hnot : ¬ Shape.Laminar shapes) :
    ∃ (s : Sequence Host.rewinding) (run : SequenceRun Host.rewinding)
      (is : List (Invocation Host.rewinding)), s.parallel = false ∧
      Pass s .root (s.Fits .root shapes) run is ∧ ¬ AtMostOnce s is := by
  let s := Shape.samples shapes false shapes.length
  have hlen : s.length = shapes.length := Shape.samples_length
  have hplain : s.PlainBetween shapes 0 s.length :=
    Shape.samples_plain (Nat.le_of_eq hlen) (fun i _ hi => by omega)
      (fun i _ hi => hlen ▸ Shape.reach_le (hlen ▸ hi))
  obtain ⟨cx, is, hwalk, hs, hsweeps⟩ := sweep_walk (hlen ▸ hmax) hplain .root (Nat.le_refl 0)
    (Nat.zero_le _) (show (⟨.start, {}⟩ : Context Host.rewinding).cursor.index = 0 from rfl) rfl
  rw [hlen] at hsweeps
  obtain ⟨run, hpass⟩ := Pass.of_walk rfl hwalk (Shape.samples_fits .root _) hs
  exact ⟨s, run, is, rfl, hpass, hsweeps.not_atMostOnce hnot⟩

/-! ### Blocks that end with a free node -/

/-- Forks from position `p` on end, and invoke the node there if nothing keeps them from it. -/
def ForksReturn {H : Host} (s : Sequence H) (nested : NestedId) (p : Nat) : Prop :=
  ∀ stop ≤ s.length, ∀ (next : Nat) (join : Join (Task H)) (cx : Context H), ∃ join' cx' is,
    (Job.fork s nested (s.span p stop) next join cx join' cx').Returns ∧
      cx.playback.Stretch is cx'.playback ∧
      (p < stop → next = p → cx.stopRequested = false → Invokes s is p)

/-- Host code that only moves the cursor. -/
theorem Context.absorb_moved {H : Host} (cx : Context H) (cursor : Cursor) :
    cx.absorb ⟨{ cx.surroundings with cursor }, []⟩ = { cx with cursor } := by
  obtain ⟨_, _, _, _, stop, _, _⟩ := cx
  cases stop with
  | true => rfl
  | false => rfl

/-- The node that rewinds leaves the cursor at the start, and is pending. -/
theorem visit_rewinding {s : Sequence Host.rewinding} {nested : NestedId} {p : Nat}
    {entry : SequenceEntry Host.rewinding} {node : HostNode Host.rewinding (Sequence Host.rewinding)}
    (hnode : entry.node = .host node) (parallel : Bool) (cx : Context Host.rewinding) :
    ∃ task cx', (Job.visit s nested p entry parallel cx (.pending task) cx').Returns ∧
      cx.playback.Stretch [cx.invocation s nested p entry parallel] cx'.playback ∧
      cx'.cursor = .start ∧ cx'.stopRequested = cx.stopRequested := by
  have hinvoke := Context.invoke_eq cx s nested p entry parallel
  have hstart : ∀ (values : List Value) (cx : Context Host.rewinding),
      entry.node.start s nested values cx = (some (.hosted ()), { cx with cursor := .start }) := by
    intro values cx
    rw [hnode]
    exact Prod.ext rfl (cx.absorb_moved .start)
  rw [hstart] at hinvoke
  have hs := Context.stretch_invoke hinvoke
  refine ⟨_, _, .visitPending hinvoke (.pollPending (.hosted rfl)), ?_, ?_, ?_⟩
  · exact (hs.after (.record _ (e := .polled _) rfl)).after (Context.stretch_absorb (.record _ _) _)
  · exact Context.absorb_cursor _ _
  · exact (congrArg Context.stopRequested (Context.absorb_moved (.record _ _) .start)).trans rfl

/-- The visit of a node of a sample ends if the forks behind it do. -/
theorem visit_returns {p : Nat}
    (hfork : ForksReturn (Shape.samples shapes true q) .root (p + 1))
    {entry : SequenceEntry Host.rewinding}
    (hentry : (Shape.samples shapes true q).nodes[p]? = some entry)
    {cx : Context Host.rewinding} (hcursor : cx.cursor.index = p) :
    ∃ outcome cx' is, (Job.visit (Shape.samples shapes true q) .root p entry true cx outcome
        cx').Returns ∧ cx.playback.Stretch is cx'.playback ∧
      Invokes (Shape.samples shapes true q) is p := by
  have hlen : (Shape.samples shapes true q).length = shapes.length := Shape.samples_length
  have hp : p < shapes.length := hlen ▸ (List.getElem?_eq_some_iff.mp hentry).1
  obtain ⟨shape, hshape⟩ : ∃ shape, shapes[p]? = some shape :=
    ⟨_, List.getElem?_eq_getElem hp⟩
  have hnode := Shape.samples_node hshape hentry
  have hown : ∀ is, Invokes (Shape.samples shapes true q)
      (is ++ [cx.invocation (Shape.samples shapes true q) .root p entry true]) p :=
    fun is => Invokes.right ⟨_, List.mem_singleton.mpr rfl, rfl, rfl⟩ is
  have hwait : entry.node = .waitFrames 0 → ∃ outcome cx' is,
      (Job.visit (Shape.samples shapes true q) .root p entry true cx outcome cx').Returns ∧
      cx.playback.Stretch is cx'.playback ∧ Invokes (Shape.samples shapes true q) is p := by
    intro hwait
    have hinvoke := Context.invoke_eq cx (Shape.samples shapes true q) .root p entry true
    rw [hwait] at hinvoke
    exact ⟨_, _, _, .visitFinished hinvoke, Context.stretch_invoke hinvoke, hown []⟩
  cases shape with
  | steady => exact hwait hnode
  -- of the free nodes only the one at `q` moves the cursor back
  | free =>
      cases hq : p == q with
      | false => exact hwait (by rw [hnode, hq]; rfl)
      | true =>
          have hhost : entry.node = .host { kind := "Rewind", behavior := () } := by
            rw [hnode, hq]; rfl
          obtain ⟨task, cx', hvisit, hs, -⟩ := visit_rewinding hhost true cx
          exact ⟨_, cx', _, hvisit, hs, hown []⟩
  | block count =>
      by_cases hlt : p + 1 < min (p + 1 + count) (Shape.samples shapes true q).length
      · obtain ⟨join, cx₁, is, hrange, hs, -⟩ := hfork _ (Nat.min_le_right _ _) (p + 1) {}
          (cx.entered (Shape.samples shapes true q) .root p entry true _)
        obtain ⟨outcome, cx', hvisit, hs'⟩ := hrange.visit_of_fork hnode hcursor rfl hlt
        exact ⟨outcome, cx', _, hvisit, ((cx.stretch_entered _ _ _ _ _ _).trans hs).after hs',
          hown is⟩
      · have hinvoke := Context.invoke_parallelNext (s := Shape.samples shapes true q) hnode hcursor
          .root true
        rw [if_neg hlt] at hinvoke
        exact ⟨_, _, _, .visitFinished hinvoke, Context.stretch_invoke hinvoke, hown []⟩

/-- Every fork over a sample ends. -/
theorem forks_return (hmax : (shapes.length : Int) ≤ Cursor.highest) (p : Nat) :
    ForksReturn (Shape.samples shapes true q) .root p := by
  have hlen : (Shape.samples shapes true q).length = shapes.length := Shape.samples_length
  induction hn : shapes.length - p generalizing p with
  | zero =>
      intro stop hstop next join cx
      rw [Sequence.span_of_le _ (by omega)]
      exact ⟨join, cx, [], .forkEnd, .refl _, fun hp => by omega⟩
  | succ n ih =>
      intro stop hstop next join cx
      by_cases hp : p < stop
      · obtain ⟨entry, hentry⟩ := Sequence.exists_entry (Nat.lt_of_lt_of_le hp hstop)
        have hlater := ih (p + 1) (by omega)
        rw [Sequence.span_cons hp hentry]
        by_cases hnext : p < next
        · obtain ⟨join', cx', is, hrest, hs, -⟩ := hlater stop hstop next join cx
          exact ⟨join', cx', is, .forkPast hnext hrest, hs, fun _ heq => by omega⟩
        · cases hstopped : cx.stopRequested with
          | true =>
              exact ⟨join, cx, [], .forkStopped (by omega) hstopped, .refl _,
                fun _ _ h => by simp at h⟩
          | false =>
              have hcursor : (cx.moveTo p).cursor.index = p := Cursor.set_index cx.cursor (by omega)
              obtain ⟨outcome, cx₁, is, hvisit, hs, hown⟩ := visit_returns hlater hentry
                hcursor
              obtain ⟨join', cx', js, hrest, hs', -⟩ :=
                hlater stop hstop (cx₁.nextBranch p) (join.count outcome) cx₁
              exact ⟨join', cx', js ++ is, .forkNext (by omega) hstopped hvisit hrest,
                hs.trans hs', fun _ _ _ => hown.right js⟩
      · rw [Sequence.span_of_le _ (by omega)]
        exact ⟨join, cx, [], .forkEnd, .refl _, fun hp' => absurd hp' hp⟩

/-- Among the blocks that end at the same place as a given one there is an innermost one. -/
theorem exists_innermost (hlaminar : Shape.Laminar shapes) {i stop : Nat}
    (hi : i < shapes.length) (hreach : Shape.reach shapes i = stop) (hlt : i + 1 < stop) :
    ∃ i, i < shapes.length ∧ Shape.reach shapes i = stop ∧ i + 1 < stop ∧
      ∀ j, i < j → j + 1 < stop → Shape.reach shapes j + 1 ≤ stop := by
  induction hn : stop - i using Nat.strongRecOn generalizing i with
  | _ n ih =>
      by_cases hinner : ∃ j, i < j ∧ j + 1 < stop ∧ Shape.reach shapes j = stop
      · obtain ⟨j, hij, hj, hend⟩ := hinner
        have hlen := Shape.reach_le hi
        exact ih (stop - j) (by omega) (by omega) hend hj rfl
      · refine ⟨i, hi, hreach, hlt, fun j hij hj => ?_⟩
        have hle := hlaminar i hi j (by omega) hij
        have hne : Shape.reach shapes j ≠ stop := fun h => hinner ⟨j, hij, hj, h⟩
        omega

/-- A block whose last node rewinds stays pending with the cursor at the start. Its nodes were
invoked, among them the first one. -/
theorem visit_rewound (hmax : (shapes.length : Int) ≤ Cursor.highest) {i : Nat}
    (hreach : Shape.reach shapes i = q + 1) (hlt : i < q) (hq : shapes[q]? = some .free)
    (hinner : ∀ j, i < j → j < q → Shape.reach shapes j ≤ q)
    {entry : SequenceEntry Host.rewinding}
    (hentry : (Shape.samples shapes true q).nodes[i]? = some entry)
    {cx : Context Host.rewinding} (hcursor : cx.cursor.index = i)
    (hstop : cx.stopRequested = false) :
    ∃ task cx' is, (Job.visit (Shape.samples shapes true q) .root i entry true cx (.pending task)
        cx').Returns ∧ cx.playback.Stretch is cx'.playback ∧ cx'.cursor = .start ∧
      cx'.stopRequested = false ∧ Invokes (Shape.samples shapes true q) is (i + 1) := by
  have hlen : (Shape.samples shapes true q).length = shapes.length := Shape.samples_length
  have hqlen : q < shapes.length := (List.getElem?_eq_some_iff.mp hq).1
  obtain ⟨count, hshape⟩ := Shape.exists_block (show i + 1 < Shape.reach shapes i by omega)
  have hend : min (i + 1 + count) (Shape.samples shapes true q).length = q + 1 := by
    rw [hlen, ← Shape.reach_of_block hshape, hreach]
  -- The nodes in front of the last one are swept over.
  have hplain : (Shape.samples shapes true q).PlainBetween shapes (i + 1) q :=
    Shape.samples_plain (by omega) (fun j _ hj => by omega)
      (fun j hj hj' => hinner j (by omega) hj')
  obtain ⟨u, join, cx₁, is, -, hqu, huq, hs, hsweeps, hdone, hgoes, hfork⟩ :=
    sweep (hlen ▸ hmax) hplain .root (Nat.le_refl _) (by omega) q (Nat.le_refl q) {}
      (cx.entered (Shape.samples shapes true q) .root i entry true (q + 1)) rfl hstop
  obtain rfl : u = q := by omega
  -- The last one rewinds.
  obtain ⟨last, hlast⟩ := Sequence.exists_entry (hlen ▸ hqlen)
  have hhost : last.node = .host { kind := "Rewind", behavior := () } := by
    rw [Shape.samples_node hq hlast, beq_self_eq_true]
    rfl
  obtain ⟨task, cx₂, hvisit, hs₂, hrewound, hgoes₂⟩ := visit_rewinding hhost true (cx₁.moveTo u)
  have hforked := hfork (u + 1) (Nat.le_succ u) (by omega) (join.count (.pending task)) cx₂ (by
    rw [Sequence.span_cons (Nat.lt_succ_self u) hlast, Sequence.span_of_le _ (Nat.le_refl _)]
    exact .forkNext (Nat.le_refl u) hgoes hvisit .forkEnd)
  have hpending : (join.count (.pending task)).isDone = false := by
    simp only [Join.isDone, Join.count, beq_iff_eq] at hdone ⊢
    exact beq_eq_false_iff_ne.mpr (by omega)
  refine ⟨_, cx₂, _, .visit_pending_of_fork (Shape.samples_node hshape hentry) hcursor hend
    (by omega) hpending hforked, ((cx.stretch_entered _ _ _ _ _ _).trans hs).trans hs₂, hrewound,
    hgoes₂.trans hgoes, ?_⟩
  by_cases hnext : i + 1 = u
  · exact Invokes.left ⟨_, List.mem_singleton.mpr rfl, rfl, hnext.symm⟩ _
  · exact ((hsweeps.covers (i + 1) (Nat.le_refl _) (by omega) _ (Nat.le_refl _)
      (Shape.lt_reach shapes _)).left _).right _

/-- A fork that comes to such a block goes on inside of it. -/
theorem fork_rewound (hmax : (shapes.length : Int) ≤ Cursor.highest)
    (hlaminar : Shape.Laminar shapes) {i : Nat} (hi : Shape.reach shapes i = q + 1) (hlt : i < q)
    (hq : shapes[q]? = some .free) (hinner : ∀ j, i < j → j < q → Shape.reach shapes j ≤ q)
    {p stop : Nat} (hp : p ≤ i) (hstop : q < stop) (hlen : stop ≤ shapes.length)
    (join : Join (Task Host.rewinding)) {cx : Context Host.rewinding}
    (hgoes : cx.stopRequested = false) :
    ∃ join' cx' is, (Job.fork (Shape.samples shapes true q) .root
        ((Shape.samples shapes true q).span p stop) p join cx join' cx').Returns ∧
      cx.playback.Stretch is cx'.playback ∧ ¬ AtMostOnce (Shape.samples shapes true q) is := by
  have hsize : (Shape.samples shapes true q).length = shapes.length := Shape.samples_length
  induction hn : i - p using Nat.strongRecOn generalizing p stop join cx with
  | _ n ih =>
      obtain ⟨entry, hentry⟩ := Sequence.exists_entry
        (show p < (Shape.samples shapes true q).length by omega)
      have hcursor : (cx.moveTo p).cursor.index = p := Cursor.set_index cx.cursor (by omega)
      have hpend := Shape.reach_le (show p < shapes.length by omega)
      have hbehind := Shape.lt_reach shapes p
      rw [Sequence.span_cons (by omega) hentry]
      by_cases hpi : p = i
      · -- The block itself: the fork goes on at its first node.
        subst hpi
        obtain ⟨task, cx₁, is, hvisit, hs, hrewound, hgoes₁, hfirst⟩ := visit_rewound hmax hi hlt hq
          hinner hentry hcursor hgoes
        obtain ⟨join', cx', js, hrest, hs', hagain⟩ := forks_return (q := q) hmax (p + 1) stop
          (by omega) (p + 1) (join.count (.pending task)) cx₁
        refine ⟨join', cx', js ++ is, .forkNext (Nat.le_refl p) hgoes hvisit ?_, hs.trans hs',
          fun honce => honce.of_append.2.2 _ (hagain (by omega) rfl hgoes₁) hfirst⟩
        have hnext : cx₁.nextBranch p = p + 1 := by
          rw [Context.nextBranch, hrewound]
          simp [Cursor.position?, Cursor.start]
        rwa [hnext]
      · by_cases hpq : Shape.reach shapes p ≤ i
        · -- A node in front of it: the fork goes on behind the node.
          have hplain : (Shape.samples shapes true q).PlainBetween shapes p
              (Shape.reach shapes p) :=
            Shape.samples_plain hpend (fun j _ hj => by omega) fun j hj hj' => by
              by_cases hjp : j = p
              · exact hjp ▸ Nat.le_refl _
              · exact hlaminar p (by omega) j hj' (by omega)
          obtain ⟨cx₁, is, hvisit, hs, -, hcursor₁, hgoes₁⟩ := sweep_visit (hsize ▸ hmax) hplain
            (Nat.le_refl p) hbehind (sweep (hsize ▸ hmax) hplain .root (by omega) (by omega)) hentry
            true hcursor hgoes
          obtain ⟨join', cx', js, hrest, hs', htwice⟩ := ih _ (by omega) hpq hstop hlen
            (join.count .done) hgoes₁ rfl
          refine ⟨join', cx', js ++ is, .forkNext (Nat.le_refl p) hgoes hvisit ?_, hs.trans hs',
            fun honce => htwice honce.of_append.1⟩
          rw [Context.nextBranch_eq hbehind hcursor₁]
          exact .fork_past (by omega) (by omega) hrest
        · -- A block around it: its own fork comes to the block.
          have hpq' : q + 1 ≤ Shape.reach shapes p :=
            hi ▸ hlaminar p (by omega) i (by omega) (by omega)
          obtain ⟨count, hshape⟩ := Shape.exists_block (show p + 1 < Shape.reach shapes p by omega)
          have hend : min (p + 1 + count) (Shape.samples shapes true q).length
              = Shape.reach shapes p := by
            rw [hsize, ← Shape.reach_of_block hshape]
          obtain ⟨inner, cx₁, is, hrange, hs, htwice⟩ := ih (i - (p + 1)) (by omega)
            (show p + 1 ≤ i by omega) hpq' hpend {} (show ((cx.moveTo p).entered
              (Shape.samples shapes true q) .root p entry true _).stopRequested = false from hgoes)
            rfl
          obtain ⟨outcome, cx₂, hvisit, hs₂⟩ := hrange.visit_of_fork
            (Shape.samples_node hshape hentry) hcursor hend (by omega)
          obtain ⟨join', cx', js, hrest, hs', -⟩ := forks_return (q := q) hmax (p + 1) stop
            (by omega) (cx₂.nextBranch p) (join.count outcome) cx₂
          have hentered := (cx.moveTo p).stretch_entered (Shape.samples shapes true q) .root p entry
            true (Shape.reach shapes p)
          exact ⟨join', cx', _, .forkNext (Nat.le_refl p) hgoes hvisit hrest,
            ((hentered.trans hs).after hs₂).trans hs',
            fun honce => htwice honce.of_append.2.1.of_append.1⟩

/-- A parallel pass over a block that ends with a free node. -/
theorem rewinding_repeats (hmax : (shapes.length : Int) ≤ Cursor.highest)
    (hlaminar : Shape.Laminar shapes) (hnot : ¬ Shape.EndsSteady shapes) :
    ∃ (s : Sequence Host.rewinding) (run : SequenceRun Host.rewinding)
      (is : List (Invocation Host.rewinding)), s.parallel = true ∧
      Pass s .root (s.Fits .root shapes) run is ∧ ¬ AtMostOnce s is := by
  simp only [Shape.EndsSteady, Classical.not_forall, Classical.not_not] at hnot
  obtain ⟨i, hi, hlt, hfree⟩ := hnot
  obtain ⟨q, hq⟩ : ∃ q, Shape.reach shapes i = q + 1 := ⟨Shape.reach shapes i - 1, by omega⟩
  rw [hq] at hlt hfree
  obtain ⟨i, hi, hreach, hlt, hinner⟩ := exists_innermost hlaminar hi hq hlt
  let s := Shape.samples shapes true q
  have hlen : s.length = shapes.length := Shape.samples_length
  have hend := Shape.reach_le hi
  obtain ⟨join, cx, is, hfork, hs, htwice⟩ := fork_rewound hmax hlaminar hreach
    (by omega) hfree (fun j hj hj' => by have := hinner j hj (by omega); omega) (Nat.zero_le i)
    (show q < s.length by omega) (Nat.le_of_eq hlen) {}
    (show (⟨.start, {}⟩ : Context Host.rewinding).stopRequested = false from rfl)
  obtain ⟨run, hpass⟩ := Pass.of_fork rfl hfork (Shape.samples_fits .root _) hs
  exact ⟨s, run, is, rfl, hpass, htwice⟩

end

/-! ### The exact conditions -/

/-- **Sequential passes.** Among the arrangements without free nodes, those in which no sequential
pass invokes a position twice are the laminar ones. -/
theorem sequential_once_iff (shapes : List Shape) (hmax : (shapes.length : Int) ≤ Cursor.highest)
    (hfree : Shape.free ∉ shapes) :
    (∀ (H : Host) (s : Sequence H) (nested : NestedId) (run : SequenceRun H)
        (is : List (Invocation H)), s.parallel = false →
        Pass s nested (s.Fits nested shapes) run is → AtMostOnce s is) ↔
      Shape.Laminar shapes := by
  constructor
  · intro honce
    refine Classical.byContradiction fun hnot => ?_
    obtain ⟨s, run, is, hseq, hpass, htwice⟩ := sequential_repeats hmax hnot
    exact htwice (honce _ s .root run is hseq hpass)
  · intro hlaminar H s nested run is hseq hpass
    obtain ⟨_, _, _, _, _, his, _⟩ := hpass.sequential_inOrder hseq hmax hfree hlaminar
    exact his.atMostOnce

/-- A block of two nodes that contains the node of a block of three is no such arrangement. -/
theorem sequential_once_overhanging :
    ([.block 2, .block 3, .steady, .steady, .steady] : List Shape).length ≤ Cursor.highest ∧
    Shape.free ∉ ([.block 2, .block 3, .steady, .steady, .steady] : List Shape) ∧
    ¬ ∀ (H : Host) (s : Sequence H) (nested : NestedId) (run : SequenceRun H)
        (is : List (Invocation H)), s.parallel = false →
        Pass s nested (s.Fits nested [.block 2, .block 3, .steady, .steady, .steady]) run is →
        AtMostOnce s is :=
  ⟨by decide, by decide,
    mt (sequential_once_iff [.block 2, .block 3, .steady, .steady, .steady] (by decide)
      (by decide)).mp (by decide)⟩

/-- What happens there: the two nodes behind the outer block are invoked by the inner one, and then
by the pass. -/
theorem overhanging_invocations :
    (((Run.new (Shape.samples [.block 2, .block 3, .steady, .steady, .steady] false 5)
      .root : SequenceRun Host.rewinding).step (Task.poll 9) 9 {}).map fun stepped =>
        (stepped.2.2.history.filterMap Event.invocation?).reverse.map (·.position))
      = some [0, 1, 2, 3, 4, 3, 4] := by
  decide

/-- **Parallel passes.** The arrangements in which no parallel pass invokes a position twice are the
laminar ones in which no block ends with a free node. -/
theorem parallel_once_iff (shapes : List Shape) (hmax : (shapes.length : Int) ≤ Cursor.highest) :
    (∀ (H : Host) (s : Sequence H) (nested : NestedId) (run : SequenceRun H)
        (is : List (Invocation H)), s.parallel = true →
        Pass s nested (s.Fits nested shapes) run is → AtMostOnce s is) ↔
      Shape.Laminar shapes ∧ Shape.EndsSteady shapes := by
  constructor
  · intro honce
    have hlaminar : Shape.Laminar shapes := by
      refine Classical.byContradiction fun hnot => ?_
      obtain ⟨s, run, is, hpar, hpass, htwice⟩ := parallel_repeats hmax hnot
      exact htwice (honce _ s .root run is hpar hpass)
    refine ⟨hlaminar, Classical.byContradiction fun hnot => ?_⟩
    obtain ⟨s, run, is, hpar, hpass, htwice⟩ := rewinding_repeats hmax hlaminar hnot
    exact htwice (honce _ s .root run is hpar hpass)
  · rintro ⟨hlaminar, hsteady⟩ H s nested run is hpar hpass
    obtain ⟨_, _, _, _, _, his⟩ := hpass.parallel_inOrder hpar hmax hlaminar hsteady
    exact his.atMostOnce

/-- A block whose last node may move the cursor back. -/
theorem parallel_once_rewinding :
    ([.block 2, .steady, .free] : List Shape).length ≤ Cursor.highest ∧
    ¬ ∀ (H : Host) (s : Sequence H) (nested : NestedId) (run : SequenceRun H)
        (is : List (Invocation H)), s.parallel = true →
        Pass s nested (s.Fits nested [.block 2, .steady, .free]) run is → AtMostOnce s is :=
  ⟨by decide, mt (parallel_once_iff [.block 2, .steady, .free] (by decide)).mp (by decide)⟩

/-- What happens there: the block stays suspended, and the list goes on at its first node. -/
theorem rewinding_invocations :
    (((Run.new (Shape.samples [.block 2, .steady, .free] true 2)
      .root : SequenceRun Host.rewinding).step (Task.poll 9) 9 {}).map fun stepped =>
        (stepped.2.2.history.filterMap Event.invocation?).reverse.map (·.position))
      = some [0, 1, 2, 1, 2] := by
  decide +kernel

end Sequencer
