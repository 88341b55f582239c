import Mathlib.Logic.Relation
import Sequencer.Proofs.Playback.Rules

/-!
# Sequencer.Proofs.Playback.History

What a step does to the playback.

* `Playback.Acts` is what node code and host code do at once: they write parameters, add to the
  journal or the log, and ask for a stop. It never happens that they do more.
* `Playback.Stretch` is what any stretch of a step does: the history grows, the clock and the
  bindings stay, a stop request stays. It names the invocations that are added to the history.
  Stretches follow one another (`Stretch.trans`), each primitive of the scheduler is one, and so is
  every job (`Job.Returns.stretch`, in `Proofs/Playback/Scope.lean`).
-/

namespace Sequencer

variable {H : Host}

/-- The log line that opens a run. -/
def Notice.opensRun : Notice → Bool
  | playing _ => true
  | _ => false

namespace Event

/-- The invocation that an event tells of. -/
def invocation? : Event H → Option (Invocation H)
  | invoked i => some i
  | _ => none

/-! The tickets that the history tells of. -/

def launched? : Event H → Option Nat
  | launched ticket => some ticket
  | _ => none

def polled? : Event H → Option Nat
  | polled ticket => some ticket
  | _ => none

def completed? : Event H → Option Nat
  | completed ticket => some ticket
  | _ => none

def abandoned? : Event H → Option Nat
  | abandoned task => some task.ticket
  | _ => none

/-- Does the event tell the host that playback ended? -/
def isSignal : Event H → Bool
  | finished | stopped _ => true
  | _ => false

/-- Does the event tell of something beside the runs? Notes and log lines do, but for the line that
opens a run. -/
def isAside : Event H → Bool
  | noticed n => !n.opensRun
  | noted _ => true
  | _ => false

theorem of_isAside {e : Event H} (h : e.isAside = true) :
    e.isSignal = false ∧ e.invocation? = none ∧ e ≠ .stopRequested := by
  cases e <;> simp_all [isAside, isSignal, invocation?]

end Event

/-! ### What code does at once -/

/-- One thing that node code or host code does to the playback. -/
inductive Playback.Act : Playback H → Playback H → Prop
  | write (pb : Playback H) (parameters : Parameters) : Act pb { pb with parameters }
  | tell (pb : Playback H) {e : Event H} : e.isAside = true → Act pb (pb.record e)
  /-- Only the first request of a step is in the history. -/
  | askStop (pb : Playback H) : pb.stopRequested = false →
      Act pb ({ pb with stopRequested := true }.record .stopRequested)

/-- What node code or host code does to the playback. -/
abbrev Playback.Acts : Playback H → Playback H → Prop := Relation.ReflTransGen Playback.Act

namespace Context

open Relation

theorem acts_requestStop (cx : Context H) : cx.playback.Acts cx.requestStop.playback := by
  unfold requestStop
  split
  · exact .refl
  · rename_i hstop
    exact .single (.askStop _ (Bool.eq_false_iff.mpr hstop))

theorem acts_noteAll (pb : Playback H) (notes : List H.Note) :
    pb.Acts (notes.foldl (fun pb note => pb.record (.noted note)) pb) := by
  induction notes generalizing pb with
  | nil => exact .refl
  | cons note rest ih => exact (ReflTransGen.single (.tell pb rfl)).trans (ih _)

theorem acts_absorb (cx : Context H) (r : Reaction H.Note) :
    cx.playback.Acts (cx.absorb r).playback := by
  have hnotes : cx.playback.Acts (r.notes.foldl (fun pb note => pb.record (.noted note))
      { cx.playback with parameters := r.surroundings.parameters }) :=
    (ReflTransGen.single (.write _ _)).trans (acts_noteAll _ r.notes)
  unfold absorb
  dsimp only
  split
  · exact hnotes.trans (acts_requestStop ⟨r.surroundings.cursor, _⟩)
  · exact hnotes

theorem acts_start (cx : Context H) (node : SequenceNode H) (sequence : Sequence H)
    (nested : NestedId) (values : List Value) :
    cx.playback.Acts (node.start sequence nested values cx).2.playback := by
  cases node with
  | skip count =>
      simp only [Node.start]
      split <;> exact .refl
  | skipIf parameter expected count =>
      simp only [Node.start]
      split <;> exact .refl
  | parallelNext count =>
      simp only [Node.start]
      split <;> exact .refl
  | stop => exact acts_requestStop cx
  | nested | wait | waitFrames | waitUntil => exact .refl
  | setParameter => exact .single (.write _ _)
  | log => exact .single (.tell _ rfl)
  | host n => exact acts_absorb cx _

end Context

/-! ### Stretches -/

/-- A stretch of one step leads from `pb` to `pb'`. The invocations in it are `is`, newest first. -/
structure Playback.Stretch (pb : Playback H) (is : List (Invocation H)) (pb' : Playback H) :
    Prop where
  /-- The history grows by these invocations and by events other than signals to the host. -/
  history : ∃ events, pb'.history = events ++ pb.history ∧
    events.filterMap Event.invocation? = is ∧ ∀ e ∈ events, e.isSignal = false
  /-- The clock stays. -/
  clock : pb'.clock = pb.clock
  /-- The bindings stay. -/
  bindings : pb'.bindings = pb.bindings
  /-- A stop request is not taken back. -/
  stop : pb.stopRequested = true → pb'.stopRequested = true

namespace Playback.Stretch

theorem refl (pb : Playback H) : pb.Stretch [] pb :=
  ⟨⟨[], rfl, rfl, by simp⟩, rfl, rfl, fun h => h⟩

theorem trans {a b c : Playback H} {is js : List (Invocation H)} (h : a.Stretch is b)
    (h' : b.Stretch js c) : a.Stretch (js ++ is) c := by
  obtain ⟨events, heq, his, hsig⟩ := h.history
  obtain ⟨events', heq', hjs, hsig'⟩ := h'.history
  refine ⟨⟨events' ++ events, ?_, ?_, ?_⟩, h'.clock.trans h.clock, h'.bindings.trans h.bindings,
    fun hs => h'.stop (h.stop hs)⟩
  · rw [heq', heq, List.append_assoc]
  · rw [List.filterMap_append, his, hjs]
  · intro e he
    rcases List.mem_append.mp he with he | he
    · exact hsig' e he
    · exact hsig e he

/-- A stretch without invocations in front of another. -/
theorem before {a b c : Playback H} {is : List (Invocation H)} (h : a.Stretch [] b)
    (h' : b.Stretch is c) : a.Stretch is c := by
  simpa using h.trans h'

/-- A stretch without invocations behind another. -/
theorem after {a b c : Playback H} {is : List (Invocation H)} (h : a.Stretch is b)
    (h' : b.Stretch [] c) : a.Stretch is c := by
  simpa using h.trans h'

/-- Recording an event that is no signal. -/
theorem record (pb : Playback H) {e : Event H} (he : e.isSignal = false) :
    pb.Stretch e.invocation?.toList (pb.record e) := by
  refine ⟨⟨[e], rfl, ?_, by simpa using he⟩, rfl, rfl, fun h => h⟩
  cases h : e.invocation? <;> simp [h]

/-- Recording one event for each element of a list. -/
theorem recordAll {α : Type} (pb : Playback H) {event : α → Event H}
    (hsignal : ∀ x, (event x).isSignal = false) (hinvoked : ∀ x, (event x).invocation? = none)
    (xs : List α) : pb.Stretch [] (xs.foldl (fun pb x => pb.record (event x)) pb) := by
  induction xs generalizing pb with
  | nil => exact refl pb
  | cons x rest ih =>
      have hrecord := record pb (hsignal x)
      rw [hinvoked x] at hrecord
      exact hrecord.before (ih _)

theorem abandon (pb : Playback H) (tasks : List Held) : pb.Stretch [] (pb.abandon tasks) :=
  recordAll pb (fun _ => rfl) (fun _ => rfl) tasks

theorem of_acts {a b : Playback H} (h : a.Acts b) : a.Stretch [] b := by
  induction h with
  | refl => exact refl a
  | @tail b _ _ hact ih =>
      refine ih.before ?_
      cases hact with
      | write parameters => exact ⟨⟨[], rfl, rfl, by simp⟩, rfl, rfl, fun h => h⟩
      | @tell e he =>
          obtain ⟨hsignal, hinvoked, -⟩ := Event.of_isAside he
          simpa [hinvoked] using record b hsignal
      | askStop hstop =>
          exact ⟨⟨[.stopRequested], rfl, rfl, by simp [Event.isSignal]⟩, rfl, rfl, fun _ => rfl⟩

end Playback.Stretch

/-- No event that is recorded asks for a stop or takes a request back. -/
@[simp] theorem Playback.stopRequested_recordAll {α : Type} (pb : Playback H) (event : α → Event H)
    (xs : List α) :
    (xs.foldl (fun pb x => pb.record (event x)) pb).stopRequested = pb.stopRequested := by
  induction xs generalizing pb with
  | nil => rfl
  | cons x rest ih => exact ih (pb.record (event x))

@[simp] theorem Playback.parameters_recordAll {α : Type} (pb : Playback H) (event : α → Event H)
    (xs : List α) :
    (xs.foldl (fun pb x => pb.record (event x)) pb).parameters = pb.parameters := by
  induction xs generalizing pb with
  | nil => rfl
  | cons x rest ih => exact ih (pb.record (event x))

@[simp] theorem Playback.abandon_parameters (pb : Playback H) (tasks : List Held) :
    (pb.abandon tasks).parameters = pb.parameters :=
  parameters_recordAll pb _ tasks

@[simp] theorem Playback.abandon_stopRequested (pb : Playback H) (tasks : List Held) :
    (pb.abandon tasks).stopRequested = pb.stopRequested :=
  stopRequested_recordAll pb _ tasks

namespace Context

open Playback (Stretch)

theorem stretch_absorb (cx : Context H) (r : Reaction H.Note) :
    cx.playback.Stretch [] (cx.absorb r).playback :=
  .of_acts (acts_absorb cx r)

/-- Host code that does not ask for a stop leaves the request as it is. -/
theorem absorb_stopRequested {cx : Context H} {r : Reaction H.Note}
    (h : r.surroundings.stopRequested = true → cx.playback.stopRequested = true) :
    (cx.absorb r).playback.stopRequested = cx.playback.stopRequested := by
  unfold absorb
  dsimp only
  split
  · rename_i hstop
    have hasked := h hstop
    rw [requestStop, stopRequested, Playback.stopRequested_recordAll, if_pos hasked]
    exact Playback.stopRequested_recordAll _ _ _
  · exact Playback.stopRequested_recordAll _ _ _

theorem stretch_release (cx : Context H) (task : Task H) :
    cx.playback.Stretch [] (cx.release task).playback :=
  .abandon _ _

theorem release_bindings (cx : Context H) (task : Task H) :
    (cx.release task).playback.bindings = cx.playback.bindings :=
  (cx.stretch_release task).bindings

theorem stretch_launch (cx : Context H) (work : Work H (Task H)) :
    cx.playback.Stretch [] (cx.launch work).2.playback :=
  ⟨⟨[.launched cx.playback.nextTicket], rfl, rfl, by simp [Event.isSignal]⟩, rfl, rfl,
    fun h => h⟩

/-- What a node does at once invokes no other node. -/
theorem stretch_start (cx : Context H) (node : SequenceNode H) (sequence : Sequence H)
    (nested : NestedId) (values : List Value) :
    cx.playback.Stretch [] (node.start sequence nested values cx).2.playback :=
  .of_acts (acts_start cx node sequence nested values)

/-- The record of an invocation in this context. -/
def invocation (cx : Context H) (sequence : Sequence H) (nested : NestedId) (position : Nat)
    (entry : SequenceEntry H) (parallel : Bool) : Invocation H where
  sequence := sequence
  nested := nested
  position := position
  entry := entry
  parallel := parallel
  frame := cx.playback.clock.frame
  values := cx.fieldValues entry.node ⟨sequence.id, nested⟩

/-- **What an invocation is.** The history tells of it; then the node works on the context, and
the work that it leaves gets a ticket. -/
theorem invoke_eq (cx : Context H) (sequence : Sequence H) (nested : NestedId) (position : Nat)
    (entry : SequenceEntry H) (parallel : Bool) :
    cx.invoke sequence nested position entry parallel =
      match entry.node.start sequence nested (cx.fieldValues entry.node ⟨sequence.id, nested⟩)
        (cx.record (.invoked (cx.invocation sequence nested position entry parallel))) with
      | (none, cx) => (none, cx)
      | (some work, cx) => (some (cx.launch work).1, (cx.launch work).2) := by
  rfl

/-- A node that leaves a task left work, which got the next ticket. -/
theorem invoke_some {cx cx' : Context H} {sequence : Sequence H} {nested : NestedId}
    {position : Nat} {entry : SequenceEntry H} {parallel : Bool} {task : Task H}
    (h : cx.invoke sequence nested position entry parallel = (some task, cx')) :
    ∃ work cx₁,
      entry.node.start sequence nested (cx.fieldValues entry.node ⟨sequence.id, nested⟩)
        (cx.record (.invoked (cx.invocation sequence nested position entry parallel)))
          = (some work, cx₁) ∧
      task = (cx₁.launch work).1 ∧ cx' = (cx₁.launch work).2 := by
  rw [invoke_eq] at h
  split at h
  · cases h
  · rename_i work cx₁ hstart
    cases h
    exact ⟨work, cx₁, hstart, rfl, rfl⟩

/-- A node that leaves no task left no work. -/
theorem invoke_none {cx cx' : Context H} {sequence : Sequence H} {nested : NestedId}
    {position : Nat} {entry : SequenceEntry H} {parallel : Bool}
    (h : cx.invoke sequence nested position entry parallel = (none, cx')) :
    entry.node.start sequence nested (cx.fieldValues entry.node ⟨sequence.id, nested⟩)
      (cx.record (.invoked (cx.invocation sequence nested position entry parallel)))
        = (none, cx') := by
  rw [invoke_eq] at h
  split at h
  · rename_i cx₁ hstart
    cases h
    exact hstart
  · cases h

/-- A node that leaves no work is finished. -/
theorem invoke_of_none {cx cx' : Context H} {sequence : Sequence H} {nested : NestedId}
    {position : Nat} {entry : SequenceEntry H} {parallel : Bool}
    (h : entry.node.start sequence nested (cx.fieldValues entry.node ⟨sequence.id, nested⟩)
      (cx.record (.invoked (cx.invocation sequence nested position entry parallel)))
        = (none, cx')) :
    cx.invoke sequence nested position entry parallel = (none, cx') := by
  rw [invoke_eq, h]

/-- Work that a node leaves gets a ticket. -/
theorem invoke_of_some {cx cx₁ : Context H} {sequence : Sequence H} {nested : NestedId}
    {position : Nat} {entry : SequenceEntry H} {parallel : Bool} {work : Work H (Task H)}
    (h : entry.node.start sequence nested (cx.fieldValues entry.node ⟨sequence.id, nested⟩)
      (cx.record (.invoked (cx.invocation sequence nested position entry parallel)))
        = (some work, cx₁)) :
    cx.invoke sequence nested position entry parallel
      = (some (cx₁.launch work).1, (cx₁.launch work).2) := by
  rw [invoke_eq, h]

theorem stretch_invoke {cx cx' : Context H} {sequence : Sequence H} {nested : NestedId}
    {position : Nat} {entry : SequenceEntry H} {parallel : Bool} {left : Option (Task H)}
    (h : cx.invoke sequence nested position entry parallel = (left, cx')) :
    cx.playback.Stretch [cx.invocation sequence nested position entry parallel] cx'.playback := by
  have hrecord := Stretch.record cx.playback
    (e := .invoked (cx.invocation sequence nested position entry parallel)) rfl
  have hstart := stretch_start
    (cx.record (.invoked (cx.invocation sequence nested position entry parallel))) entry.node
    sequence nested (cx.fieldValues entry.node ⟨sequence.id, nested⟩)
  cases left with
  | none =>
      rw [invoke_none h] at hstart
      exact hrecord.after hstart
  | some task =>
      obtain ⟨work, cx₁, heq, -, rfl⟩ := invoke_some h
      rw [heq] at hstart
      exact (hrecord.after hstart).after (stretch_launch cx₁ work)

end Context

namespace Job

/-- The playback before a job. -/
def before : Job H → Playback H
  | .poll _ cx .. | .work _ _ cx .. | .join _ _ _ _ _ cx .. | .fork _ _ _ _ _ cx ..
  | .visit _ _ _ _ _ cx .. | .branches _ cx .. | .walk _ _ cx .. | .resume _ _ _ cx .. =>
    cx.playback
  | .step _ playback .. | .passes _ _ playback .. => playback

/-- The playback after a job. -/
def after : Job H → Playback H
  | .poll _ _ _ _ cx | .work _ _ _ _ _ cx | .join _ _ _ _ _ _ _ cx | .fork _ _ _ _ _ _ _ cx
  | .visit _ _ _ _ _ _ _ cx | .branches _ _ _ _ cx | .walk _ _ _ _ _ cx
  | .resume _ _ _ _ _ _ cx => cx.playback
  | .step _ _ _ _ playback | .passes _ _ _ _ _ playback => playback

end Job

theorem Passes.stretch_current {ticket : Nat} {p : Passes H (Task H)} {pb pb' : Playback H}
    {run : SequenceRun H} {suspended : Bool} (h : p.current ticket pb = (run, suspended, pb')) :
    pb.Stretch [] pb' := by
  unfold Passes.current at h
  split at h
  · cases h; exact .refl _
  · cases h; exact .record _ (e := .passStarted ticket) rfl

theorem Passes.stretch_closePass (ticket : Nat) (p : Passes H (Task H)) (run : SequenceRun H)
    (pb : Playback H) : pb.Stretch [] (p.closePass ticket run pb) :=
  (Playback.Stretch.abandon pb run.held).before (.record _ (e := .passEnded ..) rfl)

theorem Passes.closePass_bindings (p : Passes H (Task H)) (ticket : Nat) (run : SequenceRun H)
    (pb : Playback H) : (p.closePass ticket run pb).bindings = pb.bindings :=
  (stretch_closePass ticket p run pb).bindings

end Sequencer
