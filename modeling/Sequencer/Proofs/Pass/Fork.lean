import Sequencer.Proofs.Pass.Arrangement
import Sequencer.Proofs.Playback.Places

/-!
# Sequencer.Proofs.Pass.Fork

A fork goes through its range in list order. The nodes of a sequence are invoked by the walk of a
pass and by the forks of its blocks, and a block forks inside of the fork or the walk that invoked
it. In a laminar arrangement the inner fork ends before the outer one goes on, and `fork_orderly`
says that the outer fork then goes on behind it.

The proof is by induction on the number of nodes behind the fork's first one: a block's own fork and
the rest of the enclosing fork both start further back.
-/

namespace Sequencer

variable {H : Host}

/-! ### Nodes that never move the cursor back -/

/-- Work other than a block that never moves the cursor back. -/
def Work.Steady : Work H (Task H) → Prop
  | .hosted w => ∃ W, H.Steady W ∧ W w
  | .block _ => False
  | _ => True

/-- A steady node moves the cursor forward, if at all, and leaves steady work. -/
theorem Node.steady_start {node : SequenceNode H} {s : Sequence H} {nested : NestedId}
    {values : List Value} {cx cx' : Context H} {left : Option (Work H (Task H))}
    (heq : node.start s nested values cx = (left, cx'))
    (h : node.Steady cx.playback.bindings ⟨s.id, nested⟩) (h₀ : 0 ≤ cx.cursor.index)
    (hmax : cx.cursor.index ≤ Cursor.highest) :
    cx.cursor.index ≤ cx'.cursor.index ∧ ∀ w ∈ left, w.Steady := by
  have hadvance : ∀ count, cx.cursor.index ≤ (cx.advance count).cursor.index :=
    fun count => Cursor.le_advance h₀ (by omega) hmax
  cases node with
  -- nodes that move the cursor ahead
  | skip count =>
      have hcount : 0 ≤ (cx.playback.bindings.resolve count ⟨s.id, nested⟩).toInt := h
      simp only [Node.start, if_pos hcount] at heq
      cases heq
      exact ⟨hadvance _, by simp⟩
  | skipIf parameter expected count =>
      simp only [Node.start] at heq
      cases heq
      refine ⟨?_, by simp⟩
      split
      · exact hadvance _
      · exact Int.le_refl _
  | parallelNext count => exact h.elim
  -- nodes that leave it alone, and perhaps a task
  | stop =>
      cases heq
      exact ⟨by simp, by simp⟩
  | nested inner identity loops =>
      cases heq
      exact ⟨Int.le_refl _, by simp [Work.Steady]⟩
  | wait seconds =>
      simp only [Node.start] at heq
      cases heq
      refine ⟨Int.le_refl _, ?_⟩
      split <;> simp [Work.Steady]
  | waitFrames frames =>
      simp only [Node.start] at heq
      cases heq
      refine ⟨Int.le_refl _, ?_⟩
      split <;> simp [Work.Steady]
  | waitUntil parameter expected =>
      simp only [Node.start] at heq
      cases heq
      refine ⟨Int.le_refl _, ?_⟩
      split <;> simp [Work.Steady]
  | setParameter | log =>
      cases heq
      exact ⟨Int.le_refl _, by simp⟩
  | host n =>
      obtain ⟨W, hW, hinvoke⟩ := h
      cases heq
      obtain ⟨hcursor, hleft⟩ := hinvoke ⟨s.id, nested, values⟩ cx.surroundings
      refine ⟨by simpa [Context.surroundings] using hcursor, ?_⟩
      simp only [Option.mem_def, Option.map_eq_some_iff]
      rintro _ ⟨w, hw, rfl⟩
      exact ⟨W, hW, hleft w hw⟩

/-- Steady work moves the cursor forward, if at all, and leaves steady work. -/
theorem Work.Steady.work {ticket : Nat} {w w' : Work H (Task H)} {cx cx' : Context H}
    {progress : Progress} (h : w.Steady) (hw : (Job.work ticket w cx progress w' cx').Returns) :
    cx.cursor.index ≤ cx'.cursor.index ∧ w'.Steady := by
  cases hw with
  | untilTime | untilFrame | untilParameter => exact ⟨Int.le_refl _, trivial⟩
  | hosted heq =>
      obtain ⟨W, hW, hw⟩ := h
      have hforward := hW.forward _ hw cx.surroundings
      have hstays := hW.stays _ hw cx.surroundings
      rw [heq] at hforward hstays
      exact ⟨by simpa [Context.surroundings] using hforward, W, hW, hstays⟩
  | block => exact h.elim
  | nested => exact ⟨Int.le_refl _, trivial⟩

/-- So does a task with steady work. -/
theorem Work.Steady.poll {task task' : Task H} {cx cx' : Context H} {progress : Progress}
    (h : task.work.Steady) (hpoll : (Job.poll task cx progress task' cx').Returns) :
    cx.cursor.index ≤ cx'.cursor.index ∧ task'.work.Steady := by
  cases hpoll with
  | pollPending hw => exact (h.work hw :)
  | pollDone hw => exact (h.work hw :)

/-! ### Visits -/

/-- A job that started at `cx` and came to `cx'` invoked nodes of `s` in list order, and what it
left invokes none of them. -/
structure Orderly (s : Sequence H) (low high : Nat) (left : List (Task H)) (cx cx' : Context H) :
    Prop where
  /-- The tasks that are left do not invoke nodes of `s`. -/
  confined : ∀ t ∈ left, t.Confined s.Below
  /-- The nodes of `s` were invoked in list order. -/
  ascends : ∃ is, cx.playback.Stretch is cx'.playback ∧ Ascends s low high is

/-- Polling a task that does not invoke nodes of `s`. -/
theorem Task.Confined.poll {s : Sequence H} {task task' : Task H} {cx cx' : Context H}
    {progress : Progress} (h : task.Confined s.Below)
    (hpoll : (Job.poll task cx progress task' cx').Returns) :
    task'.Confined s.Below ∧ ∃ is, cx.playback.Stretch is cx'.playback ∧
      ∀ i ∈ is, i.sequence ≠ s := by
  obtain ⟨is, hs, hc⟩ := hpoll.stretch s.below_closed
  obtain ⟨hl, his⟩ := hc h
  exact ⟨hl, is, hs, fun i hi => (his i hi).ne⟩

/-- The visit of a node that is no block invokes this node only. -/
theorem visit_orderly {s : Sequence H} {nested : NestedId} {i : Nat} {entry : SequenceEntry H}
    {parallel : Bool} {cx cx' : Context H} {outcome : Outcome H} (hentry : entry ∈ s.nodes)
    (hnode : ∀ count, entry.node ≠ .parallelNext count)
    (h : (Job.visit s nested i entry parallel cx outcome cx').Returns) :
    Orderly s i (i + 1) outcome.tasks cx cx' := by
  have hconfined : ∀ {task : Task H} {cx₁ : Context H},
      cx.invoke s nested i entry parallel = (some task, cx₁) → task.Confined s.Below := by
    intro task cx₁ heq
    obtain ⟨work, cx₂, hstart, rfl, -⟩ := Context.invoke_some heq
    obtain ⟨htasks, hsources⟩ := Node.sources_start hstart
    refine .intro (fun q hq => ?_) (fun t ht => absurd (htasks ▸ ht) List.not_mem_nil)
    rcases hsources q hq with ⟨-, count, hcount⟩ | ⟨identity, loops, hnested⟩
    · exact absurd hcount (hnode count)
    · exact Sequence.below_nested hentry hnested
  cases h with
  | visitFinished heq =>
      exact ⟨by simp [Outcome.tasks], _, Context.stretch_invoke heq,
        .single ⟨Nat.le_refl i, Nat.lt_succ_self i⟩⟩
  | visitDone heq hpoll =>
      obtain ⟨-, is, hs, his⟩ := (hconfined heq).poll hpoll
      refine ⟨by simp [Outcome.tasks], _,
        ((Context.stretch_invoke heq).trans hs).after (Context.stretch_release _ _), ?_⟩
      exact .snoc_foreign his ⟨Nat.le_refl i, Nat.lt_succ_self i⟩
  | visitPending heq hpoll =>
      obtain ⟨hl, is, hs, his⟩ := (hconfined heq).poll hpoll
      refine ⟨by simpa [Outcome.tasks] using hl, _, (Context.stretch_invoke heq).trans hs, ?_⟩
      exact .snoc_foreign his ⟨Nat.le_refl i, Nat.lt_succ_self i⟩

/-- The visit of a steady node does not move the cursor back, and leaves a steady task, if any. -/
theorem visit_steady {s : Sequence H} {nested : NestedId} {i : Nat} {entry : SequenceEntry H}
    {parallel : Bool} {cx cx' : Context H} {outcome : Outcome H}
    (hnode : entry.node.Steady cx.playback.bindings ⟨s.id, nested⟩) (h₀ : 0 ≤ cx.cursor.index)
    (hmax : cx.cursor.index ≤ Cursor.highest)
    (h : (Job.visit s nested i entry parallel cx outcome cx').Returns) :
    cx.cursor.index ≤ cx'.cursor.index ∧ ∀ t ∈ outcome.tasks, t.work.Steady := by
  have hlaunched : ∀ {task : Task H} {cx₁ : Context H},
      cx.invoke s nested i entry parallel = (some task, cx₁) →
      cx.cursor.index ≤ cx₁.cursor.index ∧ task.work.Steady := by
    intro task cx₁ heq
    obtain ⟨work, cx₂, hstart, rfl, rfl⟩ := Context.invoke_some heq
    obtain ⟨hcursor, hwork⟩ := Node.steady_start hstart hnode h₀ hmax
    exact ⟨hcursor, hwork work rfl⟩
  cases h with
  | visitFinished heq =>
      obtain ⟨hcursor, -⟩ := Node.steady_start (Context.invoke_none heq) hnode h₀ hmax
      exact ⟨hcursor, by simp [Outcome.tasks]⟩
  | visitDone heq hpoll =>
      obtain ⟨hcursor, hwork⟩ := hlaunched heq
      obtain ⟨hcursor', -⟩ := hwork.poll hpoll
      exact ⟨Int.le_trans hcursor hcursor', by simp [Outcome.tasks]⟩
  | visitPending heq hpoll =>
      obtain ⟨hcursor, hwork⟩ := hlaunched heq
      obtain ⟨hcursor', hwork'⟩ := hwork.poll hpoll
      exact ⟨Int.le_trans hcursor hcursor', by simpa [Outcome.tasks] using hwork'⟩

/-! ### Forks -/

/-- The sequence goes on at `stop` or behind it, or not at all in this step. -/
def Context.Settled (cx : Context H) (stop : Nat) : Prop :=
  cx.stopRequested = true ∨ (stop : Int) ≤ cx.cursor.index + 1

theorem Context.Settled.mono {cx : Context H} {stop stop' : Nat} (h : cx.Settled stop)
    (hle : stop' ≤ stop) : cx.Settled stop' :=
  h.imp id fun h => by omega

/-- A fork goes on behind the node that it started. -/
theorem Context.lt_nextBranch (cx : Context H) (p : Nat) : p < cx.nextBranch p :=
  Nat.lt_succ_of_le (Nat.le_max_right _ _)

/-- A fork goes on behind the cursor. -/
theorem Context.le_nextBranch {cx : Context H} {p stop : Nat}
    (h : (stop : Int) ≤ cx.cursor.index + 1) : stop ≤ cx.nextBranch p := by
  unfold nextBranch Cursor.position?
  split
  · simp only [Option.getD_some]; omega
  · omega

/-- A fork does not go on further back than one of the two demands. -/
theorem Context.nextBranch_cases {cx : Context H} {p stop : Nat} (h : stop ≤ cx.nextBranch p) :
    stop ≤ p + 1 ∨ (stop : Int) ≤ cx.cursor.index + 1 := by
  unfold nextBranch Cursor.position? at h
  split at h
  · simp only [Option.getD_some] at h; omega
  · simp only [Option.getD_none] at h; omega

theorem Context.nextBranch_eq {cx : Context H} {p stop : Nat} (hp : p < stop)
    (hcursor : cx.cursor.index + 1 = stop) : cx.nextBranch p = stop := by
  have hle : stop ≤ cx.nextBranch p := le_nextBranch (by omega)
  rcases nextBranch_cases (Nat.le_refl (cx.nextBranch p)) with h | h
  · omega
  · omega

theorem Context.Settled.release {cx : Context H} {stop : Nat} (h : cx.Settled stop)
    (task : Task H) : (cx.release task).Settled stop :=
  h.imp (stretch_release cx task).stop id

/-- Once a stop is requested a fork starts nothing. -/
theorem fork_stopped {s : Sequence H} {nested : NestedId} {range : List (SequenceEntry H × Nat)}
    {next : Nat} {join join' : Join (Task H)} {cx cx' : Context H}
    (hstop : cx.stopRequested = true)
    (h : (Job.fork s nested range next join cx join' cx').Returns) : join' = join ∧ cx' = cx := by
  induction range with
  | nil => cases h; exact ⟨rfl, rfl⟩
  | cons e rest ih =>
      cases h with
      | forkPast _ hrest => exact ih hrest
      | forkStopped => exact ⟨rfl, rfl⟩
      | forkNext _ hno => rw [hstop] at hno; cases hno

/-- What is shown of the forks whose range starts at position `p`: they invoke nodes in list order,
and the sequence goes on behind the range, unless its last node is free. -/
def ForksInOrder (s : Sequence H) (nested : NestedId) (shapes : List Shape) (b : Bindings)
    (p : Nat) : Prop :=
  ∀ ⦃stop next : Nat⦄ ⦃join join' : Join (Task H)⦄ ⦃cx cx' : Context H⦄,
    (Job.fork s nested (s.span p stop) next join cx join' cx').Returns →
    cx.playback.bindings = b → stop ≤ s.length → p ≤ next →
    (∀ i, p ≤ i → i < stop → Shape.reach shapes i ≤ stop) →
    (∀ t ∈ join.branches, t.Confined s.Below) →
    Orderly s next stop join'.branches cx cx' ∧
      (shapes[stop - 1]? ≠ some .free → (stop ≤ next → cx.Settled stop) → cx'.Settled stop)

section

variable {s : Sequence H} {nested : NestedId} {shapes : List Shape} {b : Bindings} {p : Nat}

/-- A block that is new forks over its nodes. -/
theorem work_block (hmax : (s.length : Int) ≤ Cursor.highest)
    (hfork : ForksInOrder s nested shapes b p) {stop : Nat} (hlt : p < stop)
    (hstop : stop ≤ s.length) (hin : ∀ i, p ≤ i → i < stop → Shape.reach shapes i ≤ stop)
    (hlast : shapes[stop - 1]? ≠ some .free) {ticket : Nat} {w : Work H (Task H)}
    {cx cx' : Context H} {progress : Progress}
    (h : (Job.work ticket (.block ⟨s, nested, p, stop, none⟩) cx progress w cx').Returns)
    (hb : cx.playback.bindings = b) :
    w.Confined s.Below ∧ (∃ is, cx.playback.Stretch is cx'.playback ∧ Ascends s p stop is) ∧
      cx'.Settled stop ∧ (progress = .done → (stop : Int) ≤ cx'.cursor.index + 1) ∧
      ∃ block, w = .block block ∧ block.stop = stop := by
  cases h with
  | @block _ _ _ cx₁ join hjoin =>
      cases hjoin with
      | joinStarted hrange =>
          obtain ⟨⟨hconfined, is, hs, his⟩, hsettled⟩ :=
            hfork hrange hb hstop (Nat.le_refl p) hin (by simp)
          have hsettled := hsettled hlast fun hle => absurd hlt (Nat.not_lt.mpr hle)
          have hmoved : (stop : Int) ≤ (cx₁.moveTo (stop - 1)).cursor.index + 1 := by
            rw [Context.moveTo, Cursor.set_index _ (by omega)]
            omega
          refine ⟨⟨by simp [Work.sources], by simpa [Work.tasks] using hconfined⟩,
            ⟨is, by simpa using hs, his⟩, ?_, ?_, _, rfl, rfl⟩
          · cases join.isDone with
            | true => exact .inr hmoved
            | false => exact hsettled
          · intro hdone
            cases hd : join.isDone with
            | true => exact hmoved
            | false => rw [hd] at hdone; cases hdone

/-- The first poll of a block does the same. -/
theorem poll_block (hmax : (s.length : Int) ≤ Cursor.highest)
    (hfork : ForksInOrder s nested shapes b p) {stop : Nat} (hlt : p < stop)
    (hstop : stop ≤ s.length) (hin : ∀ i, p ≤ i → i < stop → Shape.reach shapes i ≤ stop)
    (hlast : shapes[stop - 1]? ≠ some .free) {ticket : Nat} {task : Task H}
    {cx cx' : Context H} {progress : Progress}
    (h : (Job.poll ⟨ticket, false, .block ⟨s, nested, p, stop, none⟩⟩ cx progress task
      cx').Returns)
    (hb : cx.playback.bindings = b) :
    Orderly s p stop [task] cx cx' ∧ cx'.Settled stop ∧
      (progress = .done → (stop : Int) ≤ cx'.cursor.index + 1) ∧
      ∃ block, task.work = .block block ∧ block.stop = stop := by
  have hpolled := Playback.Stretch.record cx.playback (e := .polled ticket) rfl
  cases h with
  | pollPending hw =>
      obtain ⟨hc, ⟨is, hs, his⟩, hrest⟩ := work_block hmax hfork hlt hstop hin hlast hw hb
      refine ⟨⟨fun t ht => ?_, is, hpolled.before hs, his⟩, hrest⟩
      exact Task.confined_iff.mpr (List.mem_singleton.mp ht ▸ hc)
  | pollDone hw =>
      obtain ⟨hc, ⟨is, hs, his⟩, hrest⟩ := work_block hmax hfork hlt hstop hin hlast hw hb
      refine ⟨⟨fun t ht => ?_, is, (hpolled.before hs).after (.record _ (e := .completed _) rfl),
        his⟩, hrest⟩
      exact Task.confined_iff.mpr (List.mem_singleton.mp ht ▸ hc)

/-- The visit of a block invokes its node, and then forks over the nodes behind it. -/
theorem visit_block (hmax : (s.length : Int) ≤ Cursor.highest) (hlen : s.length = shapes.length)
    (hlaminar : Shape.Laminar shapes) (hsteady : Shape.EndsSteady shapes)
    (hfork : ForksInOrder s nested shapes b (p + 1)) {count : Nat}
    (hshape : shapes[p]? = some (.block count)) {entry : SequenceEntry H}
    (hnode : entry.node = .parallelNext count) {parallel : Bool} {cx cx' : Context H}
    {outcome : Outcome H} (h : (Job.visit s nested p entry parallel cx outcome cx').Returns)
    (hcursor : cx.cursor.index = p) (hb : cx.playback.bindings = b) :
    Orderly s p (Shape.reach shapes p) outcome.tasks cx cx' ∧
      cx'.Settled (Shape.reach shapes p) ∧
      (outcome = .done → (Shape.reach shapes p : Int) ≤ cx'.cursor.index + 1) ∧
      ∀ t ∈ outcome.tasks, ∃ block, t.work = .block block ∧ block.stop = Shape.reach shapes p := by
  have hp : p < shapes.length := (List.getElem?_eq_some_iff.mp hshape).1
  have hreach : min (p + 1 + count) s.length = Shape.reach shapes p := by
    rw [Shape.reach, hshape, hlen]
  have hstop : Shape.reach shapes p ≤ s.length := hlen ▸ Shape.reach_le hp
  have hlow : p < Shape.reach shapes p := Shape.lt_reach shapes p
  have hinvoke := Context.invoke_parallelNext (s := s) hnode hcursor nested parallel
  rw [hreach] at hinvoke
  have hown : ∀ {is : List (Invocation H)}, Ascends s (p + 1) (Shape.reach shapes p) is →
      Ascends s p (Shape.reach shapes p) (is ++ [cx.invocation s nested p entry parallel]) :=
    fun his => (Ascends.single ⟨Nat.le_refl p, Nat.lt_succ_self p⟩).append his (Nat.le_succ p)
      hlow
  by_cases hlt : p + 1 < Shape.reach shapes p
  · -- a block that claims nodes leaves a task, which starts them in its first poll
    rw [if_pos hlt] at hinvoke
    have hpoll := @poll_block H s nested shapes b (p + 1) hmax hfork _ hlt hstop
      (fun i hi hi' => hlaminar p hp i hi' hi) (hsteady p hp hlt)
    cases h with
    | visitFinished heq => rw [hinvoke] at heq; cases heq
    | visitDone heq hpolled =>
        have hs := Context.stretch_invoke heq
        rw [hinvoke] at heq
        cases heq
        obtain ⟨⟨-, is, hs', his⟩, hsettled, hdone, -⟩ := hpoll hpolled hb
        exact ⟨⟨by simp [Outcome.tasks], _, (hs.trans hs').after (Context.stretch_release _ _),
          hown his⟩, hsettled.release _, fun _ => hdone rfl, by simp [Outcome.tasks]⟩
    | visitPending heq hpolled =>
        have hs := Context.stretch_invoke heq
        rw [hinvoke] at heq
        cases heq
        obtain ⟨⟨hc, is, hs', his⟩, hsettled, -, hblock⟩ := hpoll hpolled hb
        exact ⟨⟨hc, _, hs.trans hs', hown his⟩, hsettled, by simp,
          by simpa [Outcome.tasks] using hblock⟩
  · -- a block of no nodes is done when it is invoked
    rw [if_neg hlt] at hinvoke
    cases h with
    | visitFinished heq =>
        have hs := Context.stretch_invoke heq
        rw [hinvoke] at heq
        cases heq
        have hahead : (Shape.reach shapes p : Int) ≤ cx.cursor.index + 1 := by omega
        exact ⟨⟨by simp [Outcome.tasks], _, hs, hown .nil⟩, .inr hahead, fun _ => hahead,
          by simp [Outcome.tasks]⟩
    | visitDone heq _ => rw [hinvoke] at heq; cases heq
    | visitPending heq _ => rw [hinvoke] at heq; cases heq

/-- The visit of any node of a fork: it keeps to the nodes of its block, and the sequence goes on
behind them, unless the node is free. -/
theorem visit_settled (hmax : (s.length : Int) ≤ Cursor.highest) (hfits : s.Fits nested shapes b)
    (hlaminar : Shape.Laminar shapes) (hsteady : Shape.EndsSteady shapes)
    (hfork : ForksInOrder s nested shapes b (p + 1)) {entry : SequenceEntry H}
    (hentry : s.nodes[p]? = some entry) {parallel : Bool} {cx cx' : Context H}
    {outcome : Outcome H} (h : (Job.visit s nested p entry parallel cx outcome cx').Returns)
    (hcursor : cx.cursor.index = p) (hb : cx.playback.bindings = b) :
    Orderly s p (Shape.reach shapes p) outcome.tasks cx cx' ∧
      (shapes[p]? ≠ some .free → cx'.Settled (Shape.reach shapes p)) := by
  have hp : p < s.length := (List.getElem?_eq_some_iff.mp hentry).1
  have hmem : entry ∈ s.nodes := List.mem_of_getElem? hentry
  obtain ⟨shape, hshape⟩ : ∃ shape, shapes[p]? = some shape :=
    ⟨_, List.getElem?_eq_getElem (hfits.length_eq ▸ hp)⟩
  have hfit := hfits.fits hshape hentry
  cases shape with
  | block count =>
      obtain ⟨horderly, hsettled, -⟩ := visit_block hmax hfits.length_eq hlaminar hsteady hfork
        hshape hfit h hcursor hb
      exact ⟨horderly, fun _ => hsettled⟩
  | steady =>
      have hreach : Shape.reach shapes p = p + 1 := by simp [Shape.reach, hshape]
      rw [hreach]
      refine ⟨visit_orderly hmem ?_ h, fun _ => .inr ?_⟩
      · intro count hnode
        rw [hnode] at hfit
        exact hfit
      · obtain ⟨hforward, -⟩ := visit_steady (hb ▸ hfit) (by omega) (by omega) h
        omega
  | free =>
      have hreach : Shape.reach shapes p = p + 1 := by simp [Shape.reach, hshape]
      rw [hreach]
      exact ⟨visit_orderly hmem hfit h, fun hfree => absurd hshape hfree⟩

/-- Forks go through their range in list order if those that start further back do. -/
theorem ForksInOrder.of_later (hmax : (s.length : Int) ≤ Cursor.highest)
    (hfits : s.Fits nested shapes b) (hlaminar : Shape.Laminar shapes)
    (hsteady : Shape.EndsSteady shapes)
    (ih : p < s.length → ForksInOrder s nested shapes b (p + 1)) :
    ForksInOrder s nested shapes b p := by
  intro stop next join join' cx cx' h hb hstop hnext hin hjoin
  by_cases hp : p < stop
  · have hlt : p < s.length := by omega
    have hlater := ih hlt
    obtain ⟨entry, hentry⟩ := Sequence.exists_entry hlt
    have hin' : ∀ i, p + 1 ≤ i → i < stop → Shape.reach shapes i ≤ stop :=
      fun i hi => hin i (by omega)
    rw [Sequence.span_cons hp hentry] at h
    cases h with
    -- the node belongs to a block in front of it
    | forkPast hlt h => exact hlater h hb hstop hlt hin' hjoin
    | forkStopped _ hs =>
        exact ⟨⟨hjoin, [], .refl _, .nil⟩, fun _ _ => .inl hs⟩
    -- the node is started, and the fork goes on behind it and all that it claims
    | @forkNext _ _ _ _ _ _ _ _ outcome _ cx₁ _ hle hno hvisit hrest =>
        obtain rfl : next = p := by omega
        have hcursor : (cx.moveTo next).cursor.index = next :=
          Cursor.set_index cx.cursor (by omega)
        obtain ⟨⟨hconfined, is, hs, his⟩, hsettled⟩ := visit_settled hmax hfits hlaminar hsteady
          hlater hentry hvisit hcursor hb
        have hreach : Shape.reach shapes next ≤ stop := hin next (Nat.le_refl _) hp
        have hlow : next < Shape.reach shapes next := Shape.lt_reach shapes next
        have hcount : ∀ t ∈ (join.count outcome).branches, t.Confined s.Below :=
          Join.forall_count hjoin hconfined
        cases hstopped : cx₁.stopRequested with
        | true =>
            obtain ⟨rfl, rfl⟩ := fork_stopped hstopped hrest
            exact ⟨⟨hcount, is, hs, his.mono (Nat.le_refl _) hreach⟩, fun _ _ => .inl hstopped⟩
        | false =>
            have hreached : Shape.reach shapes next ≤ cx₁.nextBranch next := by
              by_cases hfree : shapes[next]? = some .free
              · have hreach : Shape.reach shapes next = next + 1 := by simp [Shape.reach, hfree]
                rw [hreach]
                exact cx₁.lt_nextBranch next
              · exact Context.le_nextBranch ((hsettled hfree).resolve_left (by simp [hstopped]))
            obtain ⟨⟨hconfined', js, hs', hjs⟩, hsettled'⟩ := hlater hrest (hs.bindings.trans hb)
              hstop (cx₁.lt_nextBranch next) hin' hcount
            refine ⟨⟨hconfined', js ++ is, hs.trans hs', ?_⟩, fun hlast _ => ?_⟩
            · exact his.append (hjs.mono hreached (Nat.le_refl stop)) (by omega) hreach
            · refine hsettled' hlast fun hle => ?_
              rcases Context.nextBranch_cases hle with hle | hle
              · obtain rfl : stop = next + 1 := by omega
                exact (hsettled hlast).mono hlow
              · exact .inr hle
  · rw [Sequence.span_of_le s (by omega)] at h
    cases h with
    | forkEnd => exact ⟨⟨hjoin, [], .refl _, .nil⟩, fun _ hs => hs (by omega)⟩

/-- **Forks in list order.** In a laminar arrangement whose blocks do not end with a free node each
fork goes through its range in list order. -/
theorem forks_inOrder (hmax : (s.length : Int) ≤ Cursor.highest) (hfits : s.Fits nested shapes b)
    (hlaminar : Shape.Laminar shapes) (hsteady : Shape.EndsSteady shapes) (p : Nat) :
    ForksInOrder s nested shapes b p := by
  induction hn : s.length - p generalizing p with
  | zero => exact .of_later hmax hfits hlaminar hsteady fun hp => by omega
  | succ n ih => exact .of_later hmax hfits hlaminar hsteady fun hp => ih (p + 1) (by omega)

end

end Sequencer
