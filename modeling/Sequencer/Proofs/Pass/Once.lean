import Sequencer.Proofs.Pass.Fork
import Sequencer.Proofs.Playback.Adequacy

/-!
# Sequencer.Proofs.Pass.Once

One pass over a sequence in a laminar arrangement goes through its nodes in list order, so that it
invokes no position twice. In a parallel pass this is the fork of its first step; later steps only
poll. A sequential pass also needs where the cursor stands between two steps: `Task.Heading` says
of the task of a suspended node that the pass goes on behind all nodes invoked so far.
-/

namespace Sequencer

variable {H : Host} {s : Sequence H} {nested : NestedId} {shapes : List Shape}

/-- The history of a stretch determines its invocations. -/
theorem Playback.Stretch.filterMap_eq {pb pb' : Playback H} {is : List (Invocation H)}
    (h : pb.Stretch is pb') {events : List (Event H)}
    (heq : pb'.history = events ++ pb.history) : events.filterMap Event.invocation? = is := by
  obtain ⟨events', heq', his, -⟩ := h.history
  obtain rfl : events = events' := List.append_cancel_right (heq.symm.trans heq')
  exact his

/-! ### Parallel passes -/

/-- A parallel pass invokes its nodes in list order, and what it owns then invokes none of them. -/
theorem Pass.parallel_inOrder (hpar : s.parallel = true)
    (hmax : (shapes.length : Int) ≤ Cursor.highest) (hlaminar : Shape.Laminar shapes)
    (hsteady : Shape.EndsSteady shapes) {run : SequenceRun H} {is : List (Invocation H)}
    (h : Pass s nested (s.Fits nested shapes) run is) :
    ∃ cursor join, run = ⟨s, nested, cursor, .parallel join⟩ ∧ (join = none → is = []) ∧
      (∀ j ∈ join, ∀ t ∈ j.branches, t.Confined s.Below) ∧ Ascends s 0 s.length is := by
  induction h with
  | start => exact ⟨.start, none, by simp [Run.new, hpar], fun _ => rfl, by simp, .nil⟩
  | step _ hfits hstep hhistory ih =>
      obtain ⟨cursor, join, rfl, hnew, hconfined, his⟩ := ih
      have hmax' : (s.length : Int) ≤ Cursor.highest := hfits.length_eq ▸ hmax
      have hreturns := Job.Returns.of_step hstep
      cases hreturns with
      | @stepParallel _ _ _ _ _ join' cx hjoin =>
          refine ⟨_, some join', rfl, nofun, ?_⟩
          cases join with
          | some j =>
              -- The nodes are started: only their tasks are polled.
              obtain ⟨js, hs, hc⟩ := hjoin.stretch s.below_closed
              obtain ⟨hleft, hjs⟩ := hc (hconfined j rfl)
              rw [hs.filterMap_eq hhistory]
              refine ⟨by simpa [Job.Left] using hleft, ?_⟩
              refine his.append ?_ (Nat.zero_le _) (Nat.le_refl _)
              exact .of_foreign fun i hi => (hjs i hi).ne
          | none =>
              obtain rfl := hnew rfl
              cases hjoin with
              | joinStarted hfork =>
                  obtain ⟨⟨hleft, js, hs, hjs⟩, -⟩ := forks_inOrder hmax' hfits hlaminar hsteady 0
                    hfork rfl (Nat.le_refl _) (Nat.le_refl _)
                    (fun i _ hi => hfits.length_eq ▸ Shape.reach_le (hfits.length_eq ▸ hi))
                    (by simp)
                  rw [hs.filterMap_eq hhistory]
                  exact ⟨by simpa using hleft, by simpa using hjs⟩

/-! ### Sequential passes -/

/-- The task of a suspended node of `s`, which invokes no node of `s` any more. When it is done the
pass goes on at `next` or behind it. -/
def Task.Heading (s : Sequence H) (next : Nat) (cursor : Cursor) (t : Task H) : Prop :=
  t.Confined s.Below ∧ ((t.work.Steady ∧ (next : Int) ≤ cursor.index + 1) ∨
    ∃ block, t.work = .block block ∧ next ≤ block.stop)

/-- A poll keeps the task of a suspended node on its way. -/
theorem Task.Heading.poll {next : Nat} (hmax : (next : Int) ≤ Cursor.highest) {t t' : Task H}
    {cx cx' : Context H} {progress : Progress} (h : t.Heading s next cx.cursor)
    (hpoll : (Job.poll t cx progress t' cx').Returns) :
    t'.Heading s next cx'.cursor ∧ (progress = .done → (next : Int) ≤ cx'.cursor.index + 1) ∧
      ∃ is, cx.playback.Stretch is cx'.playback ∧ ∀ i ∈ is, i.sequence ≠ s := by
  obtain ⟨hconfined, hnext⟩ := h
  obtain ⟨hleft, hforeign⟩ := hconfined.poll hpoll
  rcases hnext with ⟨hsteady, hcursor⟩ | ⟨block, hblock, hstop⟩
  · obtain ⟨hforward, hsteady'⟩ := hsteady.poll hpoll
    have hcursor' : (next : Int) ≤ cx'.cursor.index + 1 := by omega
    exact ⟨⟨hleft, .inl ⟨hsteady', hcursor'⟩⟩, fun _ => hcursor', hforeign⟩
  · obtain ⟨work, cx₁, hw, rfl, rfl⟩ := hpoll.poll_inv
    rw [hblock] at hw
    obtain ⟨join, cx₂, -, hp, rfl, rfl⟩ := hw.block_inv
    refine ⟨⟨hleft, .inr ⟨_, rfl, hstop⟩⟩, fun hdone => ?_, hforeign⟩
    have hjoin : join.isDone = true := Progress.doneIf_eq_done.mp (hp ▸ hdone)
    have hmoved : (next : Int) ≤ (cx₂.moveTo (block.stop - 1)).cursor.index + 1 := by
      simp only [Context.moveTo, Cursor.set, Cursor.distance]
      omega
    simpa [hdone, hjoin, Context.moveToIf, Progress.isDone] using hmoved

/-- The visit of a node in list order. The node is done and the pass goes on behind the nodes that
were invoked, or its task will see to it. -/
theorem visit_heading {b : Bindings} (hmax : (s.length : Int) ≤ Cursor.highest)
    (hfits : s.Fits nested shapes b) (hfree : Shape.free ∉ shapes)
    (hlaminar : Shape.Laminar shapes) {p : Nat} {entry : SequenceEntry H}
    (hentry : s.nodes[p]? = some entry) {parallel : Bool} {cx cx' : Context H}
    {outcome : Outcome H} (h : (Job.visit s nested p entry parallel cx outcome cx').Returns)
    (hcursor : cx.cursor.index = p) (hb : cx.playback.bindings = b) :
    Orderly s p (Shape.reach shapes p) outcome.tasks cx cx' ∧
      (outcome = .done → (Shape.reach shapes p : Int) ≤ cx'.cursor.index + 1) ∧
      ∀ t ∈ outcome.tasks, t.Heading s (Shape.reach shapes p) cx'.cursor := by
  have hp : p < s.length := (List.getElem?_eq_some_iff.mp hentry).1
  have hsteady : Shape.EndsSteady shapes :=
    fun i _ _ hlast => hfree (List.mem_of_getElem? hlast)
  obtain ⟨shape, hshape⟩ : ∃ shape, shapes[p]? = some shape :=
    ⟨_, List.getElem?_eq_getElem (hfits.length_eq ▸ hp)⟩
  have hfit := hfits.fits hshape hentry
  cases shape with
  | block count =>
      obtain ⟨horderly, -, hdone, hblock⟩ := visit_block hmax hfits.length_eq hlaminar hsteady
        (forks_inOrder hmax hfits hlaminar hsteady (p + 1)) hshape hfit h hcursor hb
      refine ⟨horderly, hdone, fun t ht => ⟨horderly.confined t ht, .inr ?_⟩⟩
      obtain ⟨block, hwork, hstop⟩ := hblock t ht
      exact ⟨block, hwork, Nat.le_of_eq hstop.symm⟩
  | steady =>
      have hreach : Shape.reach shapes p = p + 1 := by simp [Shape.reach, hshape]
      obtain ⟨hforward, hleft⟩ := visit_steady (hb ▸ hfit) (by omega) (by omega) h
      have horderly := visit_orderly (List.mem_of_getElem? hentry)
        (fun count hnode => by rw [hnode] at hfit; exact hfit) h
      have hahead : (Shape.reach shapes p : Int) ≤ cx'.cursor.index + 1 := by omega
      rw [← hreach] at horderly
      exact ⟨horderly, fun _ => hahead,
        fun t ht => ⟨horderly.confined t ht, .inl ⟨hleft t ht, hahead⟩⟩⟩
  | free => exact absurd (List.mem_of_getElem? hshape) hfree

/-- What a walk comes to: the nodes from `low` on were invoked in list order up to `next`, and the
pass goes on there or further on, at once or when the current task is done. -/
def Walked (s : Sequence H) (low : Nat) (current : Option (Task H)) (cx cx' : Context H) : Prop :=
  ∃ is next, low ≤ next ∧ next ≤ s.length ∧ cx.playback.Stretch is cx'.playback ∧
    Ascends s low next is ∧ (∀ t ∈ current, t.Heading s next cx'.cursor) ∧
    (current = none → (next : Int) ≤ cx'.cursor.index)

/-- A walk goes through the nodes in list order, from the cursor on. -/
theorem walk_inOrder {b : Bindings} (hmax : (s.length : Int) ≤ Cursor.highest)
    (hfits : s.Fits nested shapes b) (hfree : Shape.free ∉ shapes)
    (hlaminar : Shape.Laminar shapes) {cx cx' : Context H} {progress : Progress}
    {current : Option (Task H)} {low : Nat}
    (h : (Job.walk s nested cx progress current cx').Returns) (hb : cx.playback.bindings = b)
    (hlow : low ≤ s.length) (hcursor : (low : Int) ≤ cx.cursor.index) :
    Walked s low current cx cx' := by
  generalize hj : Job.walk s nested cx progress current cx' = j at h
  induction h generalizing cx low with
  | walkStopped | walkEnd =>
      cases hj
      exact ⟨[], low, Nat.le_refl _, hlow, .refl _, .nil, by simp, fun _ => hcursor⟩
  | @walkNext _ _ entry p _ _ cx cx₁ _ _ hnext hvisit _ _ ih =>
      cases hj
      obtain ⟨hp, hentry⟩ := Context.nextNode?_eq_some.mp hnext
      obtain ⟨⟨-, is, hs, his⟩, hdone, -⟩ := visit_heading hmax hfits hfree hlaminar hentry hvisit
        hp hb
      have hlt : p < shapes.length := hfits.length_eq ▸ (List.getElem?_eq_some_iff.mp hentry).1
      have hreach : Shape.reach shapes p ≤ s.length := hfits.length_eq ▸ Shape.reach_le hlt
      have hbehind : p < Shape.reach shapes p := Shape.lt_reach shapes p
      have hahead := hdone rfl
      have hwalked : Walked s (Shape.reach shapes p) _ (cx₁.advance 1) cx' :=
        ih (hs.bindings.trans hb) hreach (Cursor.le_advance_one hahead (by omega) (by omega)) rfl
      obtain ⟨js, next, hle, hlen, hs', hjs, hleft, hnone⟩ := hwalked
      refine ⟨js ++ is, next, by omega, hlen, hs.trans hs', ?_, hleft, hnone⟩
      exact (his.mono (by omega) (Nat.le_refl _)).append hjs (by omega) hle
  | @walkPending _ _ entry p _ _ cx _ hnext hvisit =>
      cases hj
      obtain ⟨hp, hentry⟩ := Context.nextNode?_eq_some.mp hnext
      obtain ⟨⟨-, is, hs, his⟩, -, hleft⟩ := visit_heading hmax hfits hfree hlaminar hentry hvisit
        hp hb
      have hlt : p < shapes.length := hfits.length_eq ▸ (List.getElem?_eq_some_iff.mp hentry).1
      have hbehind : p < Shape.reach shapes p := Shape.lt_reach shapes p
      refine ⟨is, Shape.reach shapes p, by omega, hfits.length_eq ▸ Shape.reach_le hlt, hs,
        his.mono (by omega) (Nat.le_refl _), ?_, nofun⟩
      simpa [Outcome.tasks, eq_comm] using hleft
  | _ => cases hj

/-- A pass that goes on with its suspended node walks on when that node is done. -/
theorem resume_inOrder {b : Bindings} (hmax : (s.length : Int) ≤ Cursor.highest)
    (hfits : s.Fits nested shapes b) (hfree : Shape.free ∉ shapes)
    (hlaminar : Shape.Laminar shapes) {cx cx' : Context H} {progress : Progress}
    {current current' : Option (Task H)} {low : Nat}
    (h : (Job.resume s nested current cx progress current' cx').Returns)
    (hb : cx.playback.bindings = b) (hlow : low ≤ s.length)
    (hheading : ∀ t ∈ current, t.Heading s low cx.cursor)
    (hnone : current = none → (low : Int) ≤ cx.cursor.index) :
    Walked s low current' cx cx' := by
  cases h with
  | resumeWalk hwalk =>
      exact walk_inOrder hmax hfits hfree hlaminar hwalk hb hlow (hnone rfl)
  | @resumeDone _ _ _ _ _ task' _ cx₁ _ hpoll hwalk =>
      obtain ⟨-, hdone, is, hs, his⟩ := (hheading _ rfl).poll (by omega) hpoll
      have hreleased := hs.after (cx₁.stretch_release task')
      have hcursor : (low : Int) ≤ ((cx₁.release task').advance 1).cursor.index :=
        Cursor.le_advance_one (hdone rfl) (by omega) (by omega)
      obtain ⟨js, next, hle, hlen, hs', hjs, hrest⟩ := walk_inOrder hmax hfits hfree hlaminar hwalk
        (hreleased.bindings.trans hb) hlow hcursor
      refine ⟨js ++ is, next, hle, hlen, hreleased.trans hs', ?_, hrest⟩
      have hforeign : Ascends s low low is := .of_foreign his
      exact hforeign.append hjs (Nat.le_refl _) hle
  | resumePending hpoll =>
      obtain ⟨hheading', -, is, hs, his⟩ := (hheading _ rfl).poll (by omega) hpoll
      exact ⟨is, low, Nat.le_refl _, hlow, hs, .of_foreign his, by simpa using hheading', nofun⟩

/-- A sequential pass invokes its nodes in list order. Between two steps it stands in front of the
nodes that were not invoked yet, or waits for a task behind which they follow. -/
theorem Pass.sequential_inOrder (hseq : s.parallel = false)
    (hmax : (shapes.length : Int) ≤ Cursor.highest) (hfree : Shape.free ∉ shapes)
    (hlaminar : Shape.Laminar shapes) {run : SequenceRun H} {is : List (Invocation H)}
    (h : Pass s nested (s.Fits nested shapes) run is) :
    ∃ cursor current next, run = ⟨s, nested, cursor, .sequential current⟩ ∧ next ≤ s.length ∧
      Ascends s 0 next is ∧ (∀ t ∈ current, t.Heading s next cursor) ∧
      (current = none → (next : Int) ≤ cursor.index) := by
  induction h with
  | start =>
      exact ⟨.start, none, 0, by simp [Run.new, hseq], Nat.zero_le _, .nil, by simp,
        fun _ => Int.le_refl _⟩
  | step _ hfits hstep hhistory ih =>
      obtain ⟨cursor, current, low, rfl, hlow, his, hheading, hnone⟩ := ih
      have hmax' : (s.length : Int) ≤ Cursor.highest := hfits.length_eq ▸ hmax
      have hreturns := Job.Returns.of_step hstep
      cases hreturns with
      | stepSequential hresume =>
          obtain ⟨js, next, hle, hlen, hs, hjs, hrest⟩ := resume_inOrder hmax' hfits hfree hlaminar
            hresume rfl hlow hheading hnone
          rw [hs.filterMap_eq hhistory]
          exact ⟨_, _, next, rfl, hlen, his.append hjs (Nat.zero_le _) hle, hrest⟩

end Sequencer
