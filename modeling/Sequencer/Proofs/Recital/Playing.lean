import Sequencer.Proofs.Player.Stopping
import Sequencer.Proofs.Recital.Basic
import Sequencer.Proofs.Timing.Loops

/-!
# Sequencer.Proofs.Recital.Playing

Playing a prompt sequence is reciting it. `Recital.Follows` relates a playback to a recital: the
nodes that were invoked are those whose turn it was, and the parameters and the stop request agree.

Both ways of going through a list, in order and as a fork, follow the recital: the cursor stands
where the recital stands, up to the highest index, and the fork goes on behind it. A nested sequence
follows pass by pass. A stop may leave tasks behind anywhere in the tree, but then the recital is
over too, and so nothing is said of where a cursor is once a task stays pending.
-/

namespace Sequencer

variable {H : Host}

/-- What the history tells of an invocation, but for when and how. -/
def Invocation.place (i : Invocation H) : Place H := ⟨i.sequence, i.nested, i.position⟩

/-- From `base` the playback has come to `pb` as the recital has come to `r`. -/
structure Recital.Follows (r : Recital H) (base pb : Playback H) : Prop where
  turns : ∃ is, base.Stretch is pb ∧ is.map Invocation.place = r.turns
  parameters : pb.parameters = r.parameters
  stopped : pb.stopRequested = r.stopped

@[simp] theorem Context.requestStop_parameters (cx : Context H) :
    cx.requestStop.playback.parameters = cx.playback.parameters := by
  unfold requestStop
  split <;> rfl

@[simp] theorem Context.requestStop_stopRequested (cx : Context H) :
    cx.requestStop.playback.stopRequested = true := by
  unfold requestStop
  split
  · rename_i hstop
    exact hstop
  · rfl

theorem Context.absorb_parameters (cx : Context H) (r : Reaction H.Note) :
    (cx.absorb r).playback.parameters = r.surroundings.parameters := by
  unfold absorb
  dsimp only
  split
  · exact (requestStop_parameters _).trans (Playback.parameters_recordAll _ _ _)
  · exact Playback.parameters_recordAll _ _ _

namespace Recital.Follows

variable {r r' : Recital H} {base pb pb' : Playback H}

theorem clock (h : r.Follows base pb) : pb.clock = base.clock := by
  obtain ⟨is, hstretch, -⟩ := h.turns
  exact hstretch.clock

theorem bindings (h : r.Follows base pb) : pb.bindings = base.bindings := by
  obtain ⟨is, hstretch, -⟩ := h.turns
  exact hstretch.bindings

/-- A stretch in which no node is invoked. -/
theorem stretch (h : r.Follows base pb) (hstretch : pb.Stretch [] pb')
    (hturns : r'.turns = r.turns) (hparameters : pb'.parameters = r'.parameters)
    (hstopped : pb'.stopRequested = r'.stopped) : r'.Follows base pb' := by
  obtain ⟨is, hbefore, his⟩ := h.turns
  exact ⟨⟨is, hbefore.after hstretch, his.trans hturns.symm⟩, hparameters, hstopped⟩

theorem record (h : r.Follows base pb) {e : Event H} (hsignal : e.isSignal = false)
    (hinvoked : e.invocation? = none) : r.Follows base (pb.record e) := by
  have hrecord := Playback.Stretch.record pb hsignal
  rw [hinvoked] at hrecord
  exact h.stretch hrecord rfl h.parameters h.stopped

theorem abandon (h : r.Follows base pb) (tasks : List Held) : r.Follows base (pb.abandon tasks) :=
  h.stretch (.abandon pb tasks) rfl ((pb.abandon_parameters tasks).trans h.parameters)
    ((pb.abandon_stopRequested tasks).trans h.stopped)

/-- It is the turn of a node. -/
theorem invoked (h : r.Follows base pb) (i : Invocation H) :
    Recital.Follows { r with turns := i.place :: r.turns } base (pb.record (.invoked i)) := by
  obtain ⟨is, hbefore, his⟩ := h.turns
  have hrecord := Playback.Stretch.record pb (e := .invoked i) rfl
  exact ⟨⟨_, hbefore.trans hrecord, by simp [Event.invocation?, his]⟩, h.parameters, h.stopped⟩

end Recital.Follows

open Recital (Follows)

/-! ### What the parts of a prompt sequence come to -/

section

variable {s : Sequence H} {nested : NestedId} {base : Playback H}

/-- A run from the start follows the recital of its sequence. -/
def RunFollows (s : Sequence H) (nested : NestedId) (base : Playback H) : Prop :=
  ∀ (r : Recital H) (pb : Playback H), r.Follows base pb →
    ∃ progress run pb', (Job.step (.new s nested) pb progress run pb').Returns ∧
      (s.recite base.bindings nested r).Follows base pb' ∧
      (progress = .done ∨ (s.recite base.bindings nested r).stopped = true)

/-- The visit of a node follows its recital. If the node is done, the cursor has moved by as many
nodes as are skipped. -/
def VisitFollows (s : Sequence H) (nested : NestedId) (base : Playback H)
    (entry : SequenceEntry H) : Prop :=
  ∀ (p : Nat) (parallel : Bool) (r : Recital H) (pb : Playback H), (p : Int) ≤ Cursor.highest →
    r.stopped = false → r.Follows base pb →
    let place : Place H := ⟨s, nested, p⟩
    let r' := entry.node.recite base.bindings place (r.turn place)
    ∃ outcome cx', (Job.visit s nested p entry parallel ⟨⟨p⟩, pb⟩ outcome cx').Returns ∧
      r'.Follows base cx'.playback ∧
      (outcome = .done ∧ cx'.cursor.index = min Cursor.highest
          (p + entry.node.skipped base.bindings place.occurrence r.parameters : Nat) ∨
        r'.stopped = true)

theorem Cursor.eq_of_index {c : Cursor} {p : Nat} (h : c.index = p) : c = ⟨p⟩ := by
  cases c
  simp_all

/-- Behind a node the cursor stands where the recital goes on. -/
theorem Cursor.advance_behind {c : Cursor} {p skipped : Nat}
    (h : c.index = min highest (p + skipped : Nat)) :
    (c.advance 1).index = min highest (p + 1 + skipped : Nat) := by
  have h₀ : 0 ≤ c.index := by
    rw [h]
    simp only [highest]
    omega
  rw [advance_index_eq h₀, h]
  simp only [highest]
  omega

/-- What a walk comes to as it follows a recital to its end. -/
def WalkFollows (s : Sequence H) (nested : NestedId) (base : Playback H) (cx : Context H)
    (r' : Recital H) : Prop :=
  ∃ progress current cx', (Job.walk s nested cx progress current cx').Returns ∧
    r'.Follows base cx'.playback ∧ (progress = .done ∨ r'.stopped = true)

theorem walk_stopped {nodes : List (SequenceEntry H)} {passed : Nat} {place : Place H}
    {r : Recital H} {cx : Context H} (hr : r.Follows base cx.playback) (hstopped : r.stopped = true) :
    WalkFollows s nested base cx (reciteNodes base.bindings nodes passed place r) := by
  rw [reciteNodes_stopped _ _ _ _ hstopped]
  exact ⟨_, _, _, .walkStopped (hr.stopped.trans hstopped), hr, .inr hstopped⟩

/-- A walk follows the recital of the nodes from its position on. -/
theorem walk_follows (hmax : (s.length : Int) ≤ Cursor.highest)
    (hvisit : ∀ entry ∈ s.nodes, VisitFollows s nested base entry)
    {rest : List (SequenceEntry H)} {passed p : Nat} (hrest : s.nodes.drop p = rest)
    {r : Recital H} {cx : Context H} (hr : r.Follows base cx.playback)
    (hcursor : r.stopped = false → cx.cursor.index = min Cursor.highest (p + passed : Nat)) :
    WalkFollows s nested base cx (reciteNodes base.bindings rest passed ⟨s, nested, p⟩ r) := by
  induction rest generalizing passed p r cx with
  | nil =>
      cases hstopped : r.stopped with
      | true => exact walk_stopped hr hstopped
      | false =>
          have hend : s.length ≤ p := List.drop_eq_nil_iff.mp hrest
          have hposition : cx.cursor.index = (min Cursor.highest.toNat (p + passed) : Nat) := by
            rw [hcursor hstopped]
            simp only [Cursor.highest]
            omega
          have hnone : cx.nextNode? s = none := by
            refine Context.nextNode?_eq_none hposition ?_
            simp only [Cursor.highest] at *
            omega
          exact ⟨_, _, _, .walkEnd (hr.stopped.trans hstopped) hnone, hr, .inl rfl⟩
  | cons entry rest ih =>
      obtain ⟨hentry, hdrop⟩ := Sequence.of_drop_cons hrest
      have hlt : p < s.length := (List.getElem?_eq_some_iff.mp hentry).1
      cases passed with
      | succ passed =>
          -- A node that is skipped: the cursor is behind it already.
          refine ih hdrop hr fun hgoes => ?_
          rw [hcursor hgoes]
          congr 2
          omega
      | zero =>
          cases hstopped : r.stopped with
          | true => exact walk_stopped hr hstopped
          | false =>
              have hat : cx = ⟨⟨p⟩, cx.playback⟩ := by
                have hindex : cx.cursor.index = p := by
                  rw [hcursor hstopped]
                  omega
                rw [← Cursor.eq_of_index hindex]
              have hgo : cx.stopRequested = false := hr.stopped.trans hstopped
              have hnext : cx.nextNode? s = some (p, entry) :=
                Context.nextNode?_eq_some.mpr ⟨by rw [hat], hentry⟩
              obtain ⟨outcome, cx₁, hvisited, hr₁, hleft⟩ := hvisit entry
                (List.mem_of_getElem? hentry) p false r cx.playback (by omega) hstopped hr
              rw [← hat] at hvisited
              cases outcome with
              | done =>
                  have hrestFollows : WalkFollows s nested base (cx₁.advance 1)
                      (reciteNodes base.bindings (entry :: rest) 0 ⟨s, nested, p⟩ r) := by
                    rw [reciteNodes_cons _ _ _ _ hstopped]
                    refine ih hdrop hr₁ fun hgoes => Cursor.advance_behind ?_
                    exact (hleft.resolve_right (by simp [hgoes])).2
                  obtain ⟨progress, current, cx', hwalk, hfollows⟩ := hrestFollows
                  exact ⟨progress, current, cx', .walkNext hgo hnext hvisited hwalk, hfollows⟩
              | pending task =>
                  -- The node asked for a stop, and the recital is over.
                  have hover := hleft.resolve_left (by rintro ⟨⟨⟩, -⟩)
                  rw [reciteNodes_cons _ _ _ _ hstopped, reciteNodes_stopped _ _ _ _ hover]
                  exact ⟨_, _, _, .walkPending hgo hnext hvisited, hr₁, .inr hover⟩

/-- What a fork comes to as it follows a recital to its end. -/
def ForkFollows (s : Sequence H) (nested : NestedId) (base : Playback H) (p next : Nat)
    (join : Join (Task H)) (cx : Context H) (r' : Recital H) : Prop :=
  ∃ join' cx', (Job.fork s nested (s.span p s.length) next join cx join' cx').Returns ∧
    r'.Follows base cx'.playback ∧ (join'.isDone = true ∨ r'.stopped = true)

/-- Once a stop is requested, a fork starts no node. -/
theorem returns_fork_stopped {cx : Context H} (hstop : cx.stopRequested = true)
    (range : List (SequenceEntry H × Nat)) (next : Nat) (join : Join (Task H)) :
    (Job.fork s nested range next join cx join cx).Returns := by
  induction range with
  | nil => exact .forkEnd
  | cons e rest ih =>
      obtain ⟨entry, position⟩ := e
      by_cases hpast : position < next
      · exact .forkPast hpast ih
      · exact .forkStopped (Nat.le_of_not_lt hpast) hstop

theorem fork_over {nodes : List (SequenceEntry H)} {passed p next : Nat} {place : Place H}
    {join : Join (Task H)} {r : Recital H} {cx : Context H} (hr : r.Follows base cx.playback)
    (hstopped : r.stopped = true) :
    ForkFollows s nested base p next join cx (reciteNodes base.bindings nodes passed place r) := by
  rw [reciteNodes_stopped _ _ _ _ hstopped]
  exact ⟨_, _, returns_fork_stopped (hr.stopped.trans hstopped) _ _ _, hr, .inr hstopped⟩

/-- A fork goes on behind the nodes that are skipped, as far as the list goes. -/
theorem Context.lt_nextBranch_iff {cx : Context H} {p skipped q : Nat}
    (h : cx.cursor.index = min Cursor.highest (p + skipped : Nat)) (hp : (p : Int) ≤ Cursor.highest)
    (hq : (q : Int) ≤ Cursor.highest) : q < cx.nextBranch p ↔ q < p + 1 + skipped := by
  have hposition : cx.cursor.position? = some (min Cursor.highest.toNat (p + skipped)) := by
    rw [Cursor.position?_eq_some, h]
    simp only [Cursor.highest]
    omega
  rw [nextBranch, hposition, Option.getD_some]
  simp only [Cursor.highest] at *
  omega

/-- A fork follows the recital of the nodes from its position on. -/
theorem fork_follows (hmax : (s.length : Int) ≤ Cursor.highest)
    (hvisit : ∀ entry ∈ s.nodes, VisitFollows s nested base entry)
    {rest : List (SequenceEntry H)} {passed p next : Nat} (hrest : s.nodes.drop p = rest)
    {join : Join (Task H)} {r : Recital H} {cx : Context H} (hr : r.Follows base cx.playback)
    (hjoin : join.isDone = true)
    (hnext : r.stopped = false → ∀ q, q < s.length → p ≤ q → (q < next ↔ q < p + passed)) :
    ForkFollows s nested base p next join cx
      (reciteNodes base.bindings rest passed ⟨s, nested, p⟩ r) := by
  induction rest generalizing passed p next join r cx with
  | nil =>
      have hend : s.length ≤ p := List.drop_eq_nil_iff.mp hrest
      rw [ForkFollows, s.span_of_le hend]
      exact ⟨join, cx, .forkEnd, hr, .inl hjoin⟩
  | cons entry rest ih =>
      obtain ⟨hentry, hdrop⟩ := Sequence.of_drop_cons hrest
      have hlt : p < s.length := (List.getElem?_eq_some_iff.mp hentry).1
      cases hstopped : r.stopped with
      | true => exact fork_over hr hstopped
      | false =>
          have hnext := hnext hstopped
          cases passed with
          | succ passed =>
              -- A node that is skipped, and so taken out of the fork.
              have hpast : p < next := (hnext p hlt (Nat.le_refl p)).mpr (by omega)
              have hrestFollows : ForkFollows s nested base (p + 1) next join cx
                  (reciteNodes base.bindings rest passed ⟨s, nested, p + 1⟩ r) :=
                ih hdrop hr hjoin fun _ q hq hle => (hnext q hq (by omega)).trans (by omega)
              obtain ⟨join', cx', hfork, hfollows⟩ := hrestFollows
              rw [ForkFollows, Sequence.span_cons hlt hentry]
              exact ⟨join', cx', .forkPast hpast hfork, hfollows⟩
          | zero =>
              have hle : next ≤ p := Nat.le_of_not_lt fun hpast =>
                Nat.lt_irrefl p ((hnext p hlt (Nat.le_refl p)).mp hpast)
              have hgo : cx.stopRequested = false := hr.stopped.trans hstopped
              have hat : cx.moveTo p = ⟨⟨p⟩, cx.playback⟩ := by
                rw [Context.moveTo, Cursor.set_eq _ (by omega)]
              obtain ⟨outcome, cx₁, hvisited, hr₁, hleft⟩ := hvisit entry
                (List.mem_of_getElem? hentry) p true r cx.playback (by omega) hstopped hr
              rw [← hat] at hvisited
              have hrestFollows : ForkFollows s nested base (p + 1) (cx₁.nextBranch p)
                  (join.count outcome) cx₁
                  (reciteNodes base.bindings (entry :: rest) 0 ⟨s, nested, p⟩ r) := by
                rw [reciteNodes_cons _ _ _ _ hstopped]
                rcases hleft with ⟨rfl, hcursor⟩ | hover
                · refine ih hdrop hr₁ ?_ fun _ q hq _ =>
                    Context.lt_nextBranch_iff hcursor (by omega) (by omega)
                  simpa [Join.count, Join.isDone] using hjoin
                · exact fork_over hr₁ hover
              obtain ⟨join', cx', hfork, hfollows⟩ := hrestFollows
              rw [ForkFollows, Sequence.span_cons hlt hentry]
              exact ⟨join', cx', .forkNext hle hgo hvisited hfork, hfollows⟩

/-- A run follows the recital of its sequence, if the visits of the nodes follow theirs. -/
theorem new_follows (hmax : (s.length : Int) ≤ Cursor.highest)
    (hvisit : ∀ entry ∈ s.nodes, VisitFollows s nested base entry) : RunFollows s nested base := by
  intro r pb hr
  rw [s.recite_eq, Run.new]
  cases s.parallel with
  | false =>
      have hwalk : WalkFollows s nested base ⟨.start, pb⟩
          (reciteNodes base.bindings s.nodes 0 ⟨s, nested, 0⟩ r) :=
        walk_follows hmax hvisit List.drop_zero hr fun _ => rfl
      obtain ⟨progress, current, cx, hreturns, hfollows⟩ := hwalk
      exact ⟨progress, _, cx.playback, .stepSequential (.resumeWalk hreturns), hfollows⟩
  | true =>
      have hfork : ForkFollows s nested base 0 0 {} ⟨.start, pb⟩
          (reciteNodes base.bindings s.nodes 0 ⟨s, nested, 0⟩ r) :=
        fork_follows hmax hvisit List.drop_zero hr rfl fun _ _ _ _ => Iff.rfl
      obtain ⟨join, cx, hreturns, hr', hdone⟩ := hfork
      exact ⟨.doneIf join.isDone, _, cx.playback, .stepParallel (.joinStarted hreturns), hr',
        hdone.imp_left Progress.doneIf_eq_done.mpr⟩

/-! ### Nested sequences -/

/-- The next pass of a loop follows the recital of the nested sequence. -/
theorem pass_follows {inner : Sequence H} {identity : NestedId}
    (hinner : RunFollows inner identity base) {left : Nat} {p : Passes H (Task H)}
    (hp : p.Ahead inner identity left) (hrun : p.run = none) {r : Recital H} {pb : Playback H}
    (hr : r.Follows base pb) (ticket : Nat) :
    ∃ progress run run' pb₀ pb₁, p.current ticket pb = (run, false, pb₀) ∧
      (Job.step run pb₀ progress run' pb₁).Returns ∧
      (inner.recite base.bindings identity r).Follows base pb₁ ∧
      (progress = .done ∨ (inner.recite base.bindings identity r).stopped = true) := by
  have hcurrent : p.current ticket pb
      = (.new inner identity, false, pb.record (.passStarted ticket)) := by
    rw [Passes.current, hrun, ← hp.sequence, ← hp.identity]
  have hstarted : r.Follows base (pb.record (.passStarted ticket)) := hr.record rfl rfl
  obtain ⟨progress, run', pb₁, hstep, hfollows⟩ := hinner r _ hstarted
  exact ⟨progress, _, run', _, pb₁, hcurrent, hstep, hfollows⟩

/-- The passes of a loop follow the recitals of the nested sequence, one after the other. -/
theorem passes_follow {inner : Sequence H} {identity : NestedId}
    (hinner : RunFollows inner identity base) {left : Nat} {p : Passes H (Task H)}
    (hp : p.Ahead inner identity left) (hrun : p.run = none) (ticket : Nat) {r : Recital H}
    {pb : Playback H} (hr : r.Follows base pb) :
    ∃ progress p' pb', (Job.passes ticket p pb progress p' pb').Returns ∧
      ((inner.recite base.bindings identity)^[left + 1] r).Follows base pb' ∧
      (progress = .done ∨ ((inner.recite base.bindings identity)^[left + 1] r).stopped = true) := by
  induction left generalizing p r pb with
  | zero =>
      obtain ⟨progress, run, run', pb₀, pb₁, hcurrent, hstep, hr₁, hleft⟩ :=
        pass_follows hinner hp hrun hr ticket
      cases progress with
      | pending => exact ⟨_, _, pb₁, .passesPending hcurrent hstep, hr₁, hleft⟩
      | done =>
          exact ⟨_, _, _, .passesFinished hcurrent hstep (hp.finish false),
            (hr₁.abandon run'.held).record rfl rfl, hleft⟩
  | succ left ih =>
      obtain ⟨progress, run, run', pb₀, pb₁, hcurrent, hstep, hr₁, hleft⟩ :=
        pass_follows hinner hp hrun hr ticket
      rw [Function.iterate_succ_apply]
      cases progress with
      | pending =>
          -- A node asked for a stop, and no other pass begins.
          have hover := hleft.resolve_left (by rintro ⟨⟩)
          rw [Function.iterate_fixed (inner.recite_stopped _ _ hover)]
          exact ⟨_, _, pb₁, .passesPending hcurrent hstep, hr₁, .inr hover⟩
      | done =>
          obtain ⟨progress, p', pb', hpasses, hfollows⟩ := ih (hp.completePass false) rfl
            (show Follows _ base (p.closePass ticket run' pb₁) from
              (hr₁.abandon run'.held).record rfl rfl)
          exact ⟨progress, p', pb', .passesAgain hcurrent hstep (hp.again false) hpasses, hfollows⟩

/-- The visit of a node that nests a sequence. -/
theorem visit_loop {entry : SequenceEntry H} {inner : Sequence H} {identity : NestedId}
    {count : Nat} {inRange : 0 < count ∧ count ≤ 4294967295}
    (hnode : entry.node = .nested inner identity (.times count inRange))
    (hinner : RunFollows inner identity base) : VisitFollows s nested base entry := by
  intro p parallel r pb hp hstopped hr place
  obtain ⟨left, rfl⟩ : ∃ left, count = left + 1 := ⟨count - 1, by omega⟩
  let cx : Context H := ⟨⟨p⟩, pb⟩
  let i := cx.invocation s nested p entry parallel
  let loop : Passes H (Task H) :=
    { sequence := inner, identity, loops := .times (left + 1) inRange }
  let called := cx.record (.invoked i)
  let ticket := called.playback.nextTicket
  let launched := (called.launch (.passes loop)).2
  have hinvoke : cx.invoke s nested p entry parallel
      = (some ⟨ticket, false, .passes loop⟩, launched) := by
    have hstart : entry.node.start s nested (cx.fieldValues entry.node ⟨s.id, nested⟩) called
        = (some (.passes loop), called) := by
      rw [hnode]
      rfl
    exact Context.invoke_of_some hstart
  have hcalled : (r.turn place).Follows base called.playback := hr.invoked i
  have hlaunched : (r.turn place).Follows base launched.playback :=
    hcalled.stretch (called.stretch_launch _) rfl hcalled.parameters hcalled.stopped
  have hloop : loop.Ahead inner identity left := ⟨rfl, rfl, _, inRange, rfl, by simp [loop]⟩
  have hpolled : (r.turn place).Follows base (launched.playback.record (.polled ticket)) :=
    hlaunched.record rfl rfl
  obtain ⟨progress, p', pb', hpasses, hr', hleft⟩ := passes_follow hinner hloop rfl ticket hpolled
  rw [hnode]
  simp only [Node.recite, Node.skipped]
  have hpoll : (Job.poll ⟨ticket, false, .passes loop⟩ launched progress
      ⟨ticket, progress.isDone, .passes p'⟩ ⟨⟨p⟩, pb'.closePoll ticket progress⟩).Returns :=
    Job.Returns.poll (.nested hpasses)
  cases progress with
  | pending => exact ⟨_, _, .visitPending hinvoke hpoll, hr', .inr (hleft.resolve_left (by rintro ⟨⟩))⟩
  | done =>
      refine ⟨_, _, .visitDone hinvoke hpoll, (hr'.record rfl rfl).abandon _, .inl ⟨rfl, ?_⟩⟩
      change (p : Int) = _
      omega

/-- What a node does that is done when it is invoked. Its cursor stands at the node. -/
def StartFollows (s : Sequence H) (nested : NestedId) (base : Playback H) (node : SequenceNode H)
    (r : Recital H) (cx cx' : Context H) (place : Place H) : Prop :=
  let r' := node.recite base.bindings place (r.turn place)
  let values := node.fields.map (base.bindings.resolveValue · place.occurrence)
  node.start s nested values cx = (none, cx') ∧ r'.turns = (r.turn place).turns ∧
    cx'.playback.parameters = r'.parameters ∧ cx'.playback.stopRequested = r'.stopped ∧
    cx'.cursor = cx.cursor.advance (node.skipped base.bindings place.occurrence r.parameters)

/-- Wherever it stands, a node is done when it is invoked. -/
def FollowsAtOnce (s : Sequence H) (nested : NestedId) (base : Playback H)
    (node : SequenceNode H) : Prop :=
  ∀ (p : Nat) (r : Recital H) (cx : Context H), r.stopped = false →
    (r.turn ⟨s, nested, p⟩).Follows base cx.playback → cx.cursor = ⟨p⟩ →
    cx.cursor.advance 0 = cx.cursor → ∃ cx', StartFollows s nested base node r cx cx' ⟨s, nested, p⟩

/-- The visit of a node that is done when it is invoked. -/
theorem visit_at_once {entry : SequenceEntry H} {node : SequenceNode H}
    (hnode : entry.node = node) (h : FollowsAtOnce s nested base node) :
    VisitFollows s nested base entry := by
  subst hnode
  intro p parallel r pb hp hstopped hr place
  let cx : Context H := ⟨⟨p⟩, pb⟩
  let i := cx.invocation s nested p entry parallel
  let called := cx.record (.invoked i)
  have hcalled : (r.turn place).Follows base called.playback := hr.invoked i
  have hstay : called.cursor.advance 0 = called.cursor := by
    refine Cursor.eq_of_index ((Cursor.advance_index_eq (Int.natCast_nonneg p)).trans ?_)
    change min Cursor.highest ((p : Int) + 0) = p
    omega
  obtain ⟨cx', hstart, hturns, hparameters, hstop, hcursor⟩ := h p r called hstopped hcalled rfl hstay
  have hvalues : cx.fieldValues entry.node ⟨s.id, nested⟩
      = entry.node.fields.map (base.bindings.resolveValue · place.occurrence) := by
    rw [Context.fieldValues, hr.bindings]
    rfl
  have hstretch : called.playback.Stretch [] cx'.playback := by
    have := called.stretch_start entry.node s nested
      (entry.node.fields.map (base.bindings.resolveValue · place.occurrence))
    rwa [hstart] at this
  have hinvoke : cx.invoke s nested p entry parallel = (none, cx') := by
    refine Context.invoke_of_none ?_
    rw [hvalues]
    exact hstart
  refine ⟨.done, cx', .visitFinished hinvoke, hcalled.stretch hstretch hturns hparameters hstop,
    .inl ⟨rfl, ?_⟩⟩
  rw [hcursor]
  exact Cursor.advance_index_eq (Int.natCast_nonneg p)

theorem skip_at_once {count : Field Int32}
    (hforward : 0 ≤ (base.bindings.resolve count ⟨s.id, nested⟩).toInt) :
    FollowsAtOnce s nested base (.skip count) := by
  intro p r cx hstopped hr hcursor hstay
  have hdistance : 0 ≤ (cx.playback.bindings.resolve count ⟨s.id, nested⟩).toInt := by
    rw [hr.bindings]
    exact hforward
  refine ⟨cx.advance (cx.playback.bindings.resolve count ⟨s.id, nested⟩).toInt.toNat, ?_, rfl,
    hr.parameters, hr.stopped, ?_⟩
  · simp only [Node.start, if_pos hdistance]
  · rw [hr.bindings]
    rfl

theorem skipIf_at_once (parameter : String) (expected : Bool) (count : Nat) :
    FollowsAtOnce s nested base (.skipIf parameter expected count) := by
  intro p r cx hstopped hr hcursor hstay
  have hread : cx.parameterIs parameter expected
      = (r.parameters.getD Bool parameter == expected) := by
    rw [Context.parameterIs, hr.parameters]
    rfl
  cases htaken : r.parameters.getD Bool parameter == expected with
  | true =>
      rw [htaken] at hread
      refine ⟨cx.advance count, ?_, rfl, hr.parameters, hr.stopped, ?_⟩
      · simp only [Node.start, hread, if_true]
      · simp only [Node.skipped, htaken, if_true]
        rfl
  | false =>
      rw [htaken] at hread
      refine ⟨cx, ?_, rfl, hr.parameters, hr.stopped, ?_⟩
      · simp [Node.start, hread]
      · simpa [Node.skipped, htaken] using hstay.symm

/-- A prompt host node sees what the recital says, as no time has gone by. -/
theorem host_at_once (hclock : base.clock = .zero) {n : HostNode H (Sequence H)}
    (hprompt : (Node.host n : SequenceNode H).Prompt base.bindings ⟨s.id, nested⟩) :
    FollowsAtOnce s nested base (.host n) := by
  intro p r cx hstopped hr hcursor hstay
  let place : Place H := ⟨s, nested, p⟩
  let values := (Node.host (σ := Sequence H) n).fields.map
    (base.bindings.resolveValue · place.occurrence)
  let call : Call := ⟨s.id, nested, values⟩
  obtain ⟨hwork, hmoved, hasked⟩ := hprompt call cx.surroundings
  let reaction := (H.invoke n.behavior call cx.surroundings).1
  have hsurroundings : cx.surroundings = ⟨⟨p⟩, r.parameters, .zero, false⟩ := by
    rw [Context.surroundings, hcursor, hr.parameters, hr.clock, hr.stopped, hclock]
    simp [Recital.turn, hstopped]
  refine ⟨cx.absorb reaction, ?_, rfl, ?_, ?_, ?_⟩
  · change ((H.invoke n.behavior call cx.surroundings).2.map Work.hosted, _) = _
    rw [hwork]
    rfl
  · have hvalues : values = n.fields.map fun f => base.bindings.resolveValue f.field
        place.occurrence := List.map_map
    rw [cx.absorb_parameters]
    simp only [reaction, call, hvalues, hsurroundings]
    rfl
  · exact (Context.absorb_stopRequested hasked).trans hr.stopped
  · exact ((cx.absorb_cursor reaction).trans hmoved).trans hstay.symm

/-- Every visit follows its recital, if the runs of the smaller sequences follow theirs. -/
theorem visits_follow (hclock : base.clock = .zero)
    (hbelow : ∀ inner identity, s.Below inner → inner.Prompt base.bindings identity →
      RunFollows inner identity base)
    {entry : SequenceEntry H} (hentry : entry ∈ s.nodes)
    (hprompt : entry.node.Prompt base.bindings ⟨s.id, nested⟩) :
    VisitFollows s nested base entry := by
  cases hnode : entry.node with
  | nested inner identity loops =>
      rw [hnode] at hprompt
      cases loops with
      | forever => exact hprompt.elim
      | times count inRange =>
          exact visit_loop hnode (hbelow inner identity (Sequence.below_nested hentry hnode) hprompt)
  -- nodes that move the cursor
  | skip count =>
      rw [hnode] at hprompt
      exact visit_at_once hnode (skip_at_once hprompt)
  | skipIf parameter expected count => exact visit_at_once hnode (skipIf_at_once _ _ _)
  -- nodes that leave it
  | stop =>
      refine visit_at_once hnode fun p r cx hstopped hr hcursor hstay => ?_
      exact ⟨cx.requestStop, rfl, rfl, cx.requestStop_parameters.trans hr.parameters,
        cx.requestStop_stopRequested, cx.requestStop_cursor.trans hstay.symm⟩
  | setParameter parameter value =>
      refine visit_at_once hnode fun p r cx hstopped hr hcursor hstay => ?_
      refine ⟨_, rfl, rfl, ?_, hr.stopped, hstay.symm⟩
      exact congrArg (·.set parameter value) hr.parameters
  | log message severity =>
      exact visit_at_once hnode fun p r cx hstopped hr hcursor hstay =>
        ⟨_, rfl, rfl, hr.parameters, hr.stopped, hstay.symm⟩
  | waitFrames frames =>
      -- A prompt wait is one for no frames, which leaves no task.
      rw [hnode] at hprompt
      obtain rfl : frames = 0 := hprompt
      exact visit_at_once hnode fun p r cx hstopped hr hcursor hstay =>
        ⟨cx, rfl, rfl, hr.parameters, hr.stopped, hstay.symm⟩
  | host n =>
      rw [hnode] at hprompt
      exact visit_at_once hnode (host_at_once hclock hprompt)
  -- nodes that are not prompt
  | parallelNext | wait | waitUntil =>
      rw [hnode] at hprompt
      exact hprompt.elim

theorem Sequence.prompt_iff {b : Bindings} :
    s.Prompt b nested ↔ (s.length : Int) ≤ Cursor.highest ∧ NodesPrompt b s.nodes ⟨s.id, nested⟩ := by
  cases s
  rfl

/-- **Runs.** A run over a prompt sequence follows its recital. -/
theorem run_follows (hclock : base.clock = .zero) (s : Sequence H) (nested : NestedId)
    (hprompt : s.Prompt base.bindings nested) : RunFollows s nested base := by
  obtain ⟨hmax, hnodes⟩ := Sequence.prompt_iff.mp hprompt
  refine new_follows hmax fun entry hentry => ?_
  refine visits_follow hclock (fun inner identity hbelow hinner => ?_) hentry
    (hnodes.of_mem entry hentry)
  have : sizeOf inner < sizeOf s := hbelow
  exact run_follows hclock inner identity hinner
termination_by sizeOf s

end

/-! ### Playing -/

namespace Player

/-- **Playing is reciting.** If the player is idle or stopped, then to play a prompt sequence comes
to an end within the call. It invokes the nodes whose turn it is in the recital, in this order, and
leaves the parameters of the recital. Unless a node asked for a stop the player is idle then, and has
told its host once that playback finished; else it is stopped, and has told its host once of that. -/
theorem play_recites (p : Player H) (hidle : p.isPlaying = false)
    (hprompt : p.sequence.Prompt p.playback.bindings .root) :
    let r := p.sequence.recite p.playback.bindings .root { parameters := p.playback.parameters }
    ∃ bound p' events, (∀ fuel, bound ≤ fuel → p.play fuel = some p') ∧
      p'.playback.history = events ++ p.playback.history ∧
      (events.filterMap Event.invocation?).map Invocation.place = r.turns ∧
      p'.playback.parameters = r.parameters ∧
      if r.stopped then
        p'.phase = .stopped ∧ events.filter Event.isSignal = [.stopped p'.status]
      else p'.phase = .idle ∧ events.filter Event.isSignal = [.finished] := by
  intro r
  let base := p.started.playback
  have hbase : Recital.Follows { parameters := p.playback.parameters } base base :=
    ⟨⟨[], .refl base, rfl⟩, rfl, rfl⟩
  have hrun : RunFollows p.sequence .root base := run_follows rfl p.sequence .root hprompt
  obtain ⟨progress, run, pb, hstep, (hr : r.Follows base pb),
    (hleft : progress = .done ∨ r.stopped = true)⟩ := hrun _ base hbase
  obtain ⟨is, hstretch, hturns⟩ := hr.turns
  obtain ⟨events, hhistory, hinvoked, hquiet⟩ := hstretch.history
  let stepped : Player H := { p.started with run := some run, playback := pb }
  have hstopped : stepped.playback.stopRequested = r.stopped := hr.stopped
  obtain ⟨bound, hcomputes⟩ := step_of_returns rfl hstep
  obtain ⟨ending, hending, hclosing, htold⟩ := stepped.history_conclude rfl progress
  let opening : Event H := .noticed (.playing p.sequence.name)
  refine ⟨bound, stepped.conclude progress, ending ++ (events ++ [opening]), fun fuel hfuel => ?_,
    ?_, ?_, ?_, ?_⟩
  · rw [play_eq, hidle]
    exact hcomputes fuel hfuel
  · rw [hending]
    change ending ++ pb.history = _
    rw [hhistory, List.append_assoc, List.append_assoc]
    rfl
  · have hnone : ending.filterMap Event.invocation? = [] :=
      List.filterMap_eq_nil_iff.mpr fun e he => (Event.of_isClosing (hclosing e he)).1
    rw [List.filterMap_append, List.filterMap_append, hnone, hinvoked, ← hturns]
    exact congrArg _ (List.append_nil is)
  · exact (stepped.conclude_parameters progress).trans hr.parameters
  · have hsignals : (ending ++ (events ++ [opening])).filter Event.isSignal
        = ending.filter Event.isSignal := by
      have hnone : (events ++ [opening]).filter Event.isSignal = [] := by
        simpa [List.filter_eq_nil_iff, or_imp, forall_and, opening, Event.isSignal] using hquiet
      rw [List.filter_append, hnone, List.append_nil]
    rw [hsignals, htold, hstopped]
    cases hend : r.stopped with
    | true =>
        rw [hend] at hstopped
        exact ⟨(conclude_phase_stopped rfl hstopped progress).1, rfl⟩
    | false =>
        rw [hend] at hstopped
        obtain rfl : progress = .done := hleft.resolve_right (by simp [hend])
        refine ⟨?_, rfl⟩
        rw [conclude, hstopped]
        rfl

/-- A line, and a skip to behind the end. -/
def verse : Sequence Host.none where
  id := ⟨.ofNat 2⟩
  name := "verse"
  nodes := [
    .new ⟨.ofNat 1⟩ (.log (.new "sung") .info),
    .new ⟨.ofNat 2⟩ (.skip (.new 2147483647)),
    .new ⟨.ofNat 3⟩ (.log (.new "left out") .info)]

/-- A parallel sequence that asks for a stop before its last node. -/
def coda : Sequence Host.none where
  id := ⟨.ofNat 3⟩
  name := "coda"
  parallel := true
  nodes := [
    .new ⟨.ofNat 1⟩ (.setParameter "over" (.bool true)),
    .new ⟨.ofNat 2⟩ .stop,
    .new ⟨.ofNat 3⟩ (.log (.new "left out") .info)]

/-- A parallel sequence of two verses and of a coda that is not repeated. -/
def ballad : Sequence Host.none where
  id := ⟨.ofNat 1⟩
  name := "ballad"
  parallel := true
  nodes := [
    .new ⟨.ofNat 1⟩ (.setParameter "short" (.bool true)),
    .new ⟨.ofNat 2⟩ (.nested verse ⟨.ofNat 2⟩ (.times 2 LoopCount.inRange_two)),
    .new ⟨.ofNat 3⟩ (.skipIf "short" true 1),
    .new ⟨.ofNat 4⟩ (.nested verse ⟨.ofNat 4⟩ (.times 3 LoopCount.inRange_three)),
    .new ⟨.ofNat 5⟩ (.nested coda ⟨.ofNat 5⟩ (.times 2 LoopCount.inRange_two)),
    .new ⟨.ofNat 6⟩ (.log (.new "left out") .info)]

/-- The verses are sung, the skipped ones are not, and the first coda ends the ballad. -/
theorem play_recites_ballad :
    ∃ bound p' events,
      (∀ fuel, bound ≤ fuel → ({ sequence := ballad } : Player Host.none).play fuel = some p') ∧
      p'.playback.history = events ∧
      ((events.filterMap Event.invocation?).map Invocation.place).reverse.map (·.position)
        = [0, 1, 0, 1, 0, 1, 2, 4, 0, 1] ∧
      p'.playback.parameters = ⟨[("short", .bool true), ("over", .bool true)]⟩ ∧
      p'.phase = .stopped ∧ events.filter Event.isSignal = [.stopped p'.status] := by
  let r := ballad.recite .empty .root { parameters := .empty }
  have hcomputed : r.stopped = true ∧
      r.turns.reverse.map (·.position) = [0, 1, 0, 1, 0, 1, 2, 4, 0, 1] ∧
      r.parameters = ⟨[("short", .bool true), ("over", .bool true)]⟩ := by decide +kernel
  obtain ⟨hstopped, hpositions, hparameters⟩ := hcomputed
  have hprompt : ballad.Prompt .empty .root := by
    have hskip : ∀ o, (Bindings.empty.resolve (.new 2147483647) o : Int32) = 2147483647 :=
      fun _ => rfl
    simp [ballad, verse, coda, Entry.new, Sequence.Prompt, NodesPrompt, Node.Prompt, Cursor.highest,
      hskip]
  obtain ⟨bound, p', events, hplay, hhistory, hturns, hleft, hend⟩ :=
    play_recites ({ sequence := ballad } : Player Host.none) rfl hprompt
  rw [if_pos hstopped] at hend
  refine ⟨bound, p', events, hplay, hhistory.trans (List.append_nil events), ?_,
    hleft.trans hparameters, hend⟩
  rw [hturns]
  exact hpositions

end Player

end Sequencer
