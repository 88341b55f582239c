import Sequencer.Playback.Basic

/-!
# Sequencer.Playback.Invoke

The invocation of a node. A node works on the context at once and may leave a task behind, which
gets the next ticket. No task is polled here.

* `Node.start`: what each kind of node does;
* `Context.perform`: the same, with a ticket for the work that is left behind;
* `Context.invoke`: the same as part of a running sequence, which the history tells of.
-/

namespace Sequencer

namespace Node

variable {H : Host}

/-- What a node does when it is invoked, and the work it leaves behind. -/
def start (node : SequenceNode H) (sequence : Sequence H) (nested : NestedId) (values : List Value)
    (cx : Context H) : Option (Work H (Task H)) × Context H :=
  let occurrence : Occurrence := ⟨sequence.id, nested⟩
  match node with
  | .skip count =>
    let distance := (cx.playback.bindings.resolve count occurrence).toInt
    (none, if 0 ≤ distance then cx.advance distance.toNat else cx.rewind distance.natAbs)
  | .skipIf parameter expected count =>
    (none, if cx.parameterIs parameter expected then cx.advance count else cx)
  | .parallelNext count =>
    match cx.cursor.position? with
    | none => (none, cx)
    | some own =>
      let first := own + 1
      let stop := min (first + count) sequence.length
      (if first < stop then some (.block { sequence, nested, first, stop }) else none, cx)
  | .stop => (none, cx.requestStop)
  | .nested inner identity loops => (some (.passes { sequence := inner, identity, loops }), cx)
  | .wait seconds =>
    let seconds := (cx.playback.bindings.resolve seconds occurrence).widen.toFloat
    (if seconds ≤ 0.0 then none else some (.untilTime (cx.playback.clock.elapsed + seconds)), cx)
  | .waitFrames frames =>
    (if frames = 0 then none else some (.untilFrame (cx.playback.clock.frame + frames)), cx)
  | .waitUntil parameter expected =>
    (if cx.parameterIs parameter expected then none
      else some (.untilParameter parameter expected), cx)
  | .setParameter parameter value =>
    (none, { cx with
      playback := { cx.playback with parameters := cx.playback.parameters.set parameter value } })
  | .log message severity =>
    let text := cx.playback.bindings.resolve message occurrence
    (none, cx.record (.noticed (.message severity sequence.name text)))
  | .host n =>
    let (reaction, work) := H.invoke n.behavior ⟨sequence.id, nested, values⟩ cx.surroundings
    (work.map .hosted, cx.absorb reaction)

end Node

namespace Context

variable {H : Host}

/-- Gives a piece of work the next ticket. -/
def launch (cx : Context H) (work : Work H (Task H)) : Task H × Context H :=
  let ticket := cx.playback.nextTicket
  ({ ticket, work },
    { cx with playback := { cx.playback with nextTicket := ticket + 1 }.record (.launched ticket) })

/-- The values of a node's fields as the player resolves them. -/
def fieldValues (cx : Context H) (node : SequenceNode H) (o : Occurrence) : List Value :=
  node.fields.map (cx.playback.bindings.resolveValue · o)

/-- Lets a node do its work, and launches the work that it leaves behind. -/
def perform (cx : Context H) (sequence : Sequence H) (nested : NestedId)
    (node : SequenceNode H) : Option (Task H) × Context H :=
  match node.start sequence nested (cx.fieldValues node ⟨sequence.id, nested⟩) cx with
  | (none, cx) => (none, cx)
  | (some work, cx) =>
    let (task, cx) := cx.launch work
    (some task, cx)

/-- Invokes the node at a position of a sequence. -/
def invoke (cx : Context H) (sequence : Sequence H) (nested : NestedId) (position : Nat)
    (entry : SequenceEntry H) (parallel : Bool) : Option (Task H) × Context H :=
  let values := cx.fieldValues entry.node ⟨sequence.id, nested⟩
  let frame := cx.playback.clock.frame
  (cx.record (.invoked { sequence, nested, position, entry, parallel, frame, values })).perform
    sequence nested entry.node

end Context

end Sequencer
