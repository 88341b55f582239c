import Sequencer.Proofs.Pass.Fork

/-!
# Sequencer.Proofs.Pass.Sweep

Where a fork or a walk leads whose nodes are finished at once: it covers its range, and with each
block in it the nodes of the block (`sweep`, `sweep_walk`). If two of these blocks overlap and
neither is inside of the other, then a position is invoked twice, or the position behind the range
is invoked as well (`Sweeps.overlap`).
-/

namespace Sequencer

variable {H : Host}

/-! ### Visits from what happens in them -/

namespace Context

variable (cx : Context H) (s : Sequence H) (nested : NestedId) (p : Nat) (entry : SequenceEntry H)
  (parallel : Bool) (stop : Nat)

/-- The context in which a block that was invoked at `p` starts its nodes. -/
def entered : Context H :=
  ((cx.record (.invoked (cx.invocation s nested p entry parallel))).launch
    (.block ⟨s, nested, p + 1, stop, none⟩)).2.record (.polled cx.playback.nextTicket)

theorem stretch_entered : cx.playback.Stretch [cx.invocation s nested p entry parallel]
    (cx.entered s nested p entry parallel stop).playback :=
  ((Playback.Stretch.record _ (e := .invoked _) rfl).after (stretch_launch (cx.record _) _)).after
    (.record _ (e := .polled _) rfl)

/-- The invocation of the node launches the block. -/
theorem invoke_block {count : Nat} (hnode : entry.node = .parallelNext count)
    (hcursor : cx.cursor.index = p) (hstop : min (p + 1 + count) s.length = stop)
    (hlt : p + 1 < stop) :
    cx.invoke s nested p entry parallel =
      (some ⟨cx.playback.nextTicket, false, .block ⟨s, nested, p + 1, stop, none⟩⟩,
        ((cx.record (.invoked (cx.invocation s nested p entry parallel))).launch
          (.block ⟨s, nested, p + 1, stop, none⟩)).2) := by
  subst hstop
  have hinvoke := invoke_parallelNext (s := s) hnode hcursor nested parallel
  rw [if_pos hlt] at hinvoke
  exact hinvoke

end Context

namespace Job.Returns

variable {s : Sequence H} {nested : NestedId} {p count stop : Nat} {entry : SequenceEntry H}
  {parallel : Bool} {cx cx' : Context H} {join : Join (Task H)}

/-- The first poll of the block is its fork. -/
theorem work_of_fork
    (h : Returns (.fork s nested (s.span (p + 1) stop) (p + 1) {}
      (cx.entered s nested p entry parallel stop) join cx')) :
    Returns (.work cx.playback.nextTicket (.block ⟨s, nested, p + 1, stop, none⟩)
      (cx.entered s nested p entry parallel stop) (.doneIf join.isDone)
      (.block ⟨s, nested, p + 1, stop, some join⟩) (cx'.moveToIf join.isDone (stop - 1))) :=
  block (joinStarted h)

/-- A block whose join is done is done, and leaves the cursor at its last node. -/
theorem visit_done_of_fork (hnode : entry.node = .parallelNext count)
    (hcursor : cx.cursor.index = p) (hstop : min (p + 1 + count) s.length = stop)
    (hlt : p + 1 < stop) (hdone : join.isDone = true)
    (h : Returns (.fork s nested (s.span (p + 1) stop) (p + 1) {}
      (cx.entered s nested p entry parallel stop) join cx')) :
    Returns (.visit s nested p entry parallel cx .done
      (((cx'.moveTo (stop - 1)).record (.completed cx.playback.nextTicket)).release
        ⟨cx.playback.nextTicket, true, .block ⟨s, nested, p + 1, stop, some join⟩⟩)) := by
  have hinvoke := cx.invoke_block s nested p entry parallel stop hnode hcursor hstop hlt
  have hwork := work_of_fork h
  rw [hdone] at hwork
  exact visitDone hinvoke (pollDone hwork)

/-- A block whose join is not done stays as it is. -/
theorem visit_pending_of_fork (hnode : entry.node = .parallelNext count)
    (hcursor : cx.cursor.index = p) (hstop : min (p + 1 + count) s.length = stop)
    (hlt : p + 1 < stop) (hdone : join.isDone = false)
    (h : Returns (.fork s nested (s.span (p + 1) stop) (p + 1) {}
      (cx.entered s nested p entry parallel stop) join cx')) :
    Returns (.visit s nested p entry parallel cx
      (.pending ⟨cx.playback.nextTicket, false, .block ⟨s, nested, p + 1, stop, some join⟩⟩)
      cx') := by
  have hinvoke := cx.invoke_block s nested p entry parallel stop hnode hcursor hstop hlt
  have hwork := work_of_fork h
  rw [hdone] at hwork
  exact visitPending hinvoke (pollPending hwork)

/-- Whatever the join of a block has come to, its node's visit ends. -/
theorem visit_of_fork (hnode : entry.node = .parallelNext count)
    (hcursor : cx.cursor.index = p) (hstop : min (p + 1 + count) s.length = stop)
    (hlt : p + 1 < stop)
    (h : Returns (.fork s nested (s.span (p + 1) stop) (p + 1) {}
      (cx.entered s nested p entry parallel stop) join cx')) :
    ∃ outcome cx₁, Returns (.visit s nested p entry parallel cx outcome cx₁) ∧
      cx'.playback.Stretch [] cx₁.playback := by
  cases hdone : join.isDone with
  | true =>
      have hcompleted := Playback.Stretch.record cx'.playback
        (e := .completed cx.playback.nextTicket) rfl
      exact ⟨_, _, visit_done_of_fork hnode hcursor hstop hlt hdone h,
        hcompleted.after (Context.stretch_release ((cx'.moveTo _).record _) _)⟩
  | false => exact ⟨_, _, visit_pending_of_fork hnode hcursor hstop hlt hdone h, .refl _⟩

/-- A fork passes over the nodes that were claimed. -/
theorem fork_past {next : Nat} {join' : Join (Task H)} (hle : p ≤ next) (hstop : stop ≤ s.length)
    (h : Returns (.fork s nested (s.span next stop) next join cx join' cx')) :
    Returns (.fork s nested (s.span p stop) next join cx join' cx') := by
  induction hn : next - p generalizing p with
  | zero =>
      obtain rfl : p = next := by omega
      exact h
  | succ n ih =>
      by_cases hp : p < stop
      · rw [Sequence.span_cons hp (List.getElem?_eq_getElem (Nat.lt_of_lt_of_le hp hstop))]
        exact forkPast (by omega) (ih (by omega) (by omega))
      · rw [Sequence.span_of_le s (by omega)] at h ⊢
        exact h

/-- The first step of a parallel pass is the fork over all nodes. -/
theorem step_of_fork (hparallel : s.parallel = true) {pb : Playback H}
    (h : Returns (.fork s nested (s.span 0 s.length) 0 {} ⟨.start, pb⟩ join cx)) :
    ∃ progress run, Returns (.step (.new s nested) pb progress run cx.playback) := by
  have hnew : (.new s nested : SequenceRun H) = ⟨s, nested, .start, .parallel none⟩ := by
    simp [Run.new, hparallel]
  exact ⟨_, _, hnew ▸ stepParallel (joinStarted h)⟩

end Job.Returns

/-! ### What a sweep over a range invokes -/

/-- The node at position `p` of `s` is among these invocations. -/
def Invokes (s : Sequence H) (is : List (Invocation H)) (p : Nat) : Prop :=
  ∃ i ∈ is, i.sequence = s ∧ i.position = p

theorem Invokes.left {s : Sequence H} {is : List (Invocation H)} {p : Nat} (h : Invokes s is p)
    (js : List (Invocation H)) : Invokes s (is ++ js) p := by
  obtain ⟨i, hi, hp⟩ := h
  exact ⟨i, List.mem_append_left _ hi, hp⟩

theorem Invokes.right {s : Sequence H} {is : List (Invocation H)} {p : Nat} (h : Invokes s is p)
    (js : List (Invocation H)) : Invokes s (js ++ is) p := by
  obtain ⟨i, hi, hp⟩ := h
  exact ⟨i, List.mem_append_right _ hi, hp⟩

/-- The node's own invocation. -/
theorem invokes_single (cx : Context H) (s : Sequence H) (nested : NestedId) (p : Nat)
    (entry : SequenceEntry H) (parallel : Bool) (q : Nat) :
    Invokes s [cx.invocation s nested p entry parallel] q ↔ q = p := by
  constructor
  · rintro ⟨i, hi, -, rfl⟩
    rw [List.mem_singleton.mp hi]
    rfl
  · rintro rfl
    exact ⟨_, List.mem_singleton.mpr rfl, rfl, rfl⟩

theorem invokes_append {s : Sequence H} {is js : List (Invocation H)} {q : Nat} :
    Invokes s (js ++ is) q ↔ Invokes s is q ∨ Invokes s js q := by
  constructor
  · rintro ⟨i, hi, h⟩
    exact (List.mem_append.mp hi).symm.imp (⟨i, ·, h⟩) (⟨i, ·, h⟩)
  · rintro (h | h)
    · exact h.right js
    · exact h.left is

theorem AtMostOnce.of_append {s : Sequence H} {is js : List (Invocation H)}
    (h : AtMostOnce s (is ++ js)) : AtMostOnce s is ∧ AtMostOnce s js ∧
      ∀ p, Invokes s is p → ¬ Invokes s js p := by
  obtain ⟨his, hjs, hne⟩ := List.pairwise_append.mp h
  refine ⟨his, hjs, ?_⟩
  rintro p ⟨i, hi, his, rfl⟩ ⟨j, hj, hjs, heq⟩
  exact hne i hi j hj his hjs heq.symm

/-- The nodes from `p` up to `stop` were invoked, and with each block the nodes of the block. If a
block of them ends within another one and behind its end, this was too much. -/
structure Sweeps (s : Sequence H) (shapes : List Shape) (p stop : Nat)
    (is : List (Invocation H)) : Prop where
  /-- All nodes are invoked. -/
  covers : ∀ i, p ≤ i → i < stop → ∀ j, i ≤ j → j < Shape.reach shapes i → Invokes s is j
  /-- Overlapping blocks show. -/
  overlap : ∀ i j, p ≤ i → i < stop → i < j → j < Shape.reach shapes i →
    Shape.reach shapes i < Shape.reach shapes j → Invokes s is stop ∨ ¬ AtMostOnce s is
  /-- Nothing else is invoked. -/
  within : ∀ i ∈ is, i.position < shapes.length

namespace Sweeps

variable {s : Sequence H} {shapes : List Shape} {p stop : Nat} {is js : List (Invocation H)}

theorem nil (h : stop ≤ p) : Sweeps s shapes p stop [] where
  covers i hi hi' := by omega
  overlap i j hi hi' := by omega
  within := by simp

/-- The node at `p`, and then the nodes of its block. -/
theorem of_block {i : Invocation H} (hs : i.sequence = s) (hp : i.position = p)
    (hlen : p < shapes.length) (h : Sweeps s shapes (p + 1) (Shape.reach shapes p) is) :
    Sweeps s shapes p (Shape.reach shapes p) (is ++ [i]) where
  covers j hj hj' k hk hk' := by
    by_cases hjp : j = p
    · subst hjp
      by_cases hkp : k = j
      · exact Invokes.right ⟨i, List.mem_singleton.mpr rfl, hs, hp.trans hkp.symm⟩ is
      · exact (h.covers k (by omega) hk' k (Nat.le_refl k) (Shape.lt_reach shapes k)).left [i]
    · exact (h.covers j (by omega) hj' k hk hk').left [i]
  overlap j k hj hj' hk hk' hlt := by
    by_cases hjp : j = p
    · subst hjp
      exact .inl ((h.covers k (by omega) hk' _ (Nat.le_of_lt hk') hlt).left [i])
    · rcases h.overlap j k (by omega) hj' hk hk' hlt with hinv | htwice
      · exact .inl (hinv.left [i])
      · exact .inr fun honce => htwice honce.of_append.1
  within j hj := by
    rcases List.mem_append.mp hj with hj | hj
    · exact h.within j hj
    · exact List.mem_singleton.mp hj ▸ hp ▸ hlen

/-- The node at `p`, which has no block. -/
theorem single {i : Invocation H} (hs : i.sequence = s) (hp : i.position = p)
    (hlen : p < shapes.length) (hreach : Shape.reach shapes p = p + 1) :
    Sweeps s shapes p (Shape.reach shapes p) [i] :=
  of_block hs hp hlen (nil (Nat.le_of_eq hreach))

/-- A sweep on behind the block at `p`. -/
theorem append (hp : p < stop) (h : Sweeps s shapes p (Shape.reach shapes p) is)
    (h' : Sweeps s shapes (Shape.reach shapes p) stop js) : Sweeps s shapes p stop (js ++ is) where
  covers i hi hi' j hj hj' := by
    by_cases hip : i < Shape.reach shapes p
    · exact (h.covers i hi hip j hj hj').right js
    · exact (h'.covers i (by omega) hi' j hj hj').left is
  overlap i j hi hi' hj hj' hlt := by
    by_cases hip : i < Shape.reach shapes p
    · -- The block at `p` was swept: it left a position twice, or its own end too soon.
      rcases h.overlap i j hi hip hj hj' hlt with hinv | htwice
      · rcases Nat.lt_trichotomy (Shape.reach shapes p) stop with hstop | hstop | hstop
        · have hagain := h'.covers _ (Nat.le_refl _) hstop _ (Nat.le_refl _)
            (Shape.lt_reach shapes _)
          exact .inr fun honce => honce.of_append.2.2 _ hagain hinv
        · exact .inl (hstop ▸ hinv.right js)
        · have hinv' := h.covers p (Nat.le_refl p) (Shape.lt_reach shapes p) stop (by omega) hstop
          exact .inl (hinv'.right js)
      · exact .inr fun honce => htwice honce.of_append.2.1
    · rcases h'.overlap i j (by omega) hi' hj hj' hlt with hinv | htwice
      · exact .inl (hinv.left is)
      · exact .inr fun honce => htwice honce.of_append.1
  within i hi := (List.mem_append.mp hi).elim (h'.within i) (h.within i)

end Sweeps

/-! ### Sweeps over plain nodes -/

/-- The plain node of a shape: what is no block is finished at once. -/
def Shape.plain : Option Shape → SequenceNode H
  | some (.block count) => .parallelNext count
  | _ => .waitFrames 0

theorem Shape.plain_of_not_block {shape : Option Shape}
    (h : ∀ count, shape ≠ some (.block count)) :
    (Shape.plain shape : SequenceNode H) = .waitFrames 0 := by
  unfold plain
  split
  · rename_i count
    exact absurd rfl (h count)
  · rfl

/-- From position `low` up to `bound` the nodes of a sequence are plain, and no block of them
reaches past the bound. -/
structure Sequence.PlainBetween (s : Sequence H) (shapes : List Shape) (low bound : Nat) :
    Prop where
  /-- There is a shape for each node. -/
  length_eq : s.length = shapes.length
  /-- The nodes end behind the bound. -/
  bound_le : bound ≤ s.length
  /-- Each node of the range is plain. -/
  plain : ∀ {i : Nat} {entry : SequenceEntry H}, low ≤ i → i < bound →
    s.nodes[i]? = some entry → entry.node = Shape.plain shapes[i]?
  /-- Each block of the range ends at the bound or before it. -/
  reach_le : ∀ {i : Nat}, low ≤ i → i < bound → Shape.reach shapes i ≤ bound

section

variable {s : Sequence H} {nested : NestedId} {shapes : List Shape} {low bound p : Nat}

/-- What is shown of the forks whose range starts at position `p` and extends to `t` or behind it.
They start the nodes up to `t`, and come to some position `u` behind them, from which on the fork is
the same as a fork that starts there. -/
def SweepsFrom (s : Sequence H) (nested : NestedId) (shapes : List Shape) (bound p : Nat) : Prop :=
  ∀ t ≤ bound, ∀ (join : Join (Task H)) (cx : Context H),
    join.isDone = true → cx.stopRequested = false →
    ∃ u join₁ cx₁ is, p ≤ u ∧ t ≤ u ∧ u ≤ bound ∧ cx.playback.Stretch is cx₁.playback ∧
      Sweeps s shapes p t is ∧ join₁.isDone = true ∧ cx₁.stopRequested = false ∧
      ∀ stop, t ≤ stop → stop ≤ s.length → ∀ join' cx',
        (Job.fork s nested (s.span u stop) u join₁ cx₁ join' cx').Returns →
        (Job.fork s nested (s.span p stop) p join cx join' cx').Returns

/-- The visit of a plain node sweeps over the nodes of its block, if it is one. -/
theorem sweep_visit (hmax : (s.length : Int) ≤ Cursor.highest)
    (hplain : s.PlainBetween shapes low bound) (hlow : low ≤ p) (hp : p < bound)
    (hfork : SweepsFrom s nested shapes bound (p + 1)) {entry : SequenceEntry H}
    (hentry : s.nodes[p]? = some entry) (parallel : Bool) {cx : Context H}
    (hcursor : cx.cursor.index = p) (hstop : cx.stopRequested = false) :
    ∃ cx' is, (Job.visit s nested p entry parallel cx .done cx').Returns ∧
      cx.playback.Stretch is cx'.playback ∧ Sweeps s shapes p (Shape.reach shapes p) is ∧
      cx'.cursor.index + 1 = Shape.reach shapes p ∧ cx'.stopRequested = false := by
  have hlen : p < shapes.length := by have := hplain.length_eq; have := hplain.bound_le; omega
  have hnode := hplain.plain hlow hp hentry
  have hreach := hplain.reach_le hlow hp
  have hbound := hplain.bound_le
  have hsize := hplain.length_eq
  -- The invocation finishes the node, and leaves the cursor where it was.
  have hfinished : Shape.reach shapes p = p + 1 →
      cx.invoke s nested p entry parallel
        = (none, cx.record (.invoked (cx.invocation s nested p entry parallel))) →
      ∃ cx' is, (Job.visit s nested p entry parallel cx .done cx').Returns ∧
        cx.playback.Stretch is cx'.playback ∧ Sweeps s shapes p (Shape.reach shapes p) is ∧
        cx'.cursor.index + 1 = Shape.reach shapes p ∧ cx'.stopRequested = false := by
    intro hone hinvoke
    refine ⟨_, _, .visitFinished hinvoke, Context.stretch_invoke hinvoke, ?_, ?_, hstop⟩
    · exact .single rfl rfl hlen hone
    · rw [hone, Context.record_cursor, hcursor]
      omega
  by_cases hblock : ∃ count, shapes[p]? = some (.block count)
  · obtain ⟨count, hshape⟩ := hblock
    have hstop' : min (p + 1 + count) s.length = Shape.reach shapes p := by
      rw [Shape.reach_of_block hshape, hsize]
    rw [hshape] at hnode
    by_cases hlt : p + 1 < Shape.reach shapes p
    · obtain ⟨u, join, cx₁, is, -, hu, -, hs, hsweeps, hdone, hgoes, hfork⟩ := hfork _ hreach {}
        (cx.entered s nested p entry parallel (Shape.reach shapes p)) rfl hstop
      have hended := hfork _ (Nat.le_refl _) (by omega) join cx₁ (by
        rw [Sequence.span_of_le s hu]
        exact .forkEnd)
      have hpolled := ((cx.stretch_entered s nested p entry parallel _).trans hs).after
        (.record _ (e := .completed cx.playback.nextTicket) rfl)
      refine ⟨_, _, .visit_done_of_fork hnode hcursor hstop' hlt hdone hended,
        hpolled.after (Context.stretch_release ((cx₁.moveTo _).record _) _),
        .of_block rfl rfl hlen hsweeps, ?_, ?_⟩
      · rw [Context.release_cursor, Context.record_cursor, Context.moveTo,
          Cursor.set_index _ (by omega)]
        omega
      · exact (Playback.abandon_stopRequested _ _).trans hgoes
    · refine hfinished (by have := Shape.lt_reach shapes p; omega) ?_
      rw [Context.invoke_parallelNext hnode hcursor, hstop', if_neg hlt]
  · have hshape : ∀ count, shapes[p]? ≠ some (.block count) := fun count h => hblock ⟨count, h⟩
    have hwait : entry.node = .waitFrames 0 := hnode.trans (Shape.plain_of_not_block hshape)
    refine hfinished (Shape.reach_of_not_block hshape) ?_
    rw [Context.invoke_eq, hwait]
    rfl

/-- **Sweeps.** A fork over plain nodes sweeps over them. -/
theorem sweep (hmax : (s.length : Int) ≤ Cursor.highest)
    (hplain : s.PlainBetween shapes low bound) (nested : NestedId) (hlow : low ≤ p)
    (hp : p ≤ bound) :
    SweepsFrom s nested shapes bound p := by
  induction hn : bound - p using Nat.strongRecOn generalizing p with
  | _ n ih =>
      intro t ht join cx hdone hstop
      by_cases hpt : p < t
      · have hbound := hplain.bound_le
        have hsize := hplain.length_eq
        have hlen : p < s.length := by omega
        have hreach := hplain.reach_le hlow (by omega : p < bound)
        have hbehind := Shape.lt_reach shapes p
        obtain ⟨entry, hentry⟩ := Sequence.exists_entry hlen
        have hcursor : (cx.moveTo p).cursor.index = p := Cursor.set_index cx.cursor (by omega)
        obtain ⟨cx₁, is, hvisit, hs, hsweeps, hcursor₁, hstop₁⟩ := sweep_visit hmax hplain hlow
          (by omega) (ih (bound - (p + 1)) (by omega) (by omega) (by omega) rfl) hentry true hcursor
          hstop
        have hcount : (join.count .done).isDone = true := by
          simpa [Join.isDone, Join.count] using hdone
        obtain ⟨u, join₂, cx₂, js, hpu, htu, hub, hs', hsweeps', hdone₂, hstop₂, hfork⟩ :=
          ih (bound - Shape.reach shapes p) (by omega) (by omega) hreach rfl t ht _ _ hcount hstop₁
        refine ⟨u, join₂, cx₂, js ++ is, by omega, htu, hub, hs.trans hs',
          hsweeps.append hpt hsweeps', hdone₂, hstop₂, fun stop hle hlen' join' cx' h => ?_⟩
        rw [Sequence.span_cons (by omega) hentry]
        refine .forkNext (Nat.le_refl p) hstop hvisit ?_
        rw [Context.nextBranch_eq hbehind hcursor₁]
        exact .fork_past (by omega) hlen' (hfork stop hle hlen' join' cx' h)
      · exact ⟨p, join, cx, [], Nat.le_refl p, by omega, hp, .refl _, .nil (by omega), hdone, hstop,
          fun _ _ _ _ _ h => h⟩

/-- A walk over plain nodes sweeps over them up to the end. -/
theorem sweep_walk (hmax : (s.length : Int) ≤ Cursor.highest)
    (hplain : s.PlainBetween shapes low s.length) (nested : NestedId) (hlow : low ≤ p)
    (hp : p ≤ s.length)
    {cx : Context H} (hcursor : cx.cursor.index = p) (hstop : cx.stopRequested = false) :
    ∃ cx' is, (Job.walk s nested cx .done none cx').Returns ∧
      cx.playback.Stretch is cx'.playback ∧ Sweeps s shapes p s.length is := by
  induction hn : s.length - p using Nat.strongRecOn generalizing p cx with
  | _ n ih =>
      by_cases hlt : p < s.length
      · obtain ⟨entry, hentry⟩ := Sequence.exists_entry hlt
        have hreach := hplain.reach_le hlow hlt
        have hbehind := Shape.lt_reach shapes p
        obtain ⟨cx₁, is, hvisit, hs, hsweeps, hcursor₁, hstop₁⟩ := sweep_visit hmax hplain hlow hlt
          (sweep hmax hplain nested (by omega) (by omega)) hentry false hcursor hstop
        have hnext : (cx₁.advance 1).cursor.index = Shape.reach shapes p := by
          rw [Context.advance, Cursor.advance_index (by omega) (by omega)]
          omega
        obtain ⟨cx', js, hwalk, hs', hsweeps'⟩ := ih _ (by omega) (by omega) hreach hnext hstop₁ rfl
        exact ⟨cx', js ++ is, .walkNext hstop (Context.nextNode?_eq_some.mpr ⟨hcursor, hentry⟩)
          hvisit hwalk, hs.trans hs', hsweeps.append hlt hsweeps'⟩
      · exact ⟨cx, [], .walkEnd hstop (Context.nextNode?_eq_none hcursor (by omega)), .refl _,
          .nil (by omega)⟩

end

end Sequencer
