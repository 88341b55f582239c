import Sequencer.Node

/-!
# Sequencer.Rehearsal.StandIn

Stand-ins for the nodes of a host. They do what a script tells them and write everything that
reaches them into the journal, which makes visible what a player does.

* a mark notes its label;
* a hold suspends until a parameter is true;
* a probe notes its fields and runs the actions it is given, when it is invoked and in each poll.
-/

namespace Sequencer.Rehearsal

/-- One thing that a probe does. -/
inductive Action
  /-- Moves the cursor forward. -/
  | advance (count : Nat)
  /-- Moves the cursor back. -/
  | rewind (count : Nat)
  /-- Moves the cursor to an index. -/
  | moveTo (index : Nat)
  /-- Asks for a stop. -/
  | stop
  /-- Writes a parameter. -/
  | write (name : String) (value : Value)
  /-- Removes a parameter. -/
  | remove (name : String)
  /-- Notes a parameter, if it is of a kind. -/
  | read (name : String) (type : ValueType)
  /-- Notes the time. -/
  | clock
  /-- Notes whether a stop is requested. -/
  | stopping
  /-- Notes the cursor. -/
  | index
  deriving DecidableEq

/-- What a stand-in does. -/
inductive StandIn
  /-- Notes its label. -/
  | mark
  /-- Suspends until a parameter is true. -/
  | hold (parameter : String)
  /-- Runs actions; with a list for each poll it suspends for as many polls. -/
  | probe (tag : String) (actions : List Action) (polls : Option (List (List Action)))

/-- A suspended stand-in. -/
inductive Waiting
  /-- A hold. -/
  | hold (parameter : String)
  /-- A probe that has been polled so often. -/
  | probe (tag : String) (polls : List (List Action)) (polled : Nat)

/-- An entry of the journal. -/
inductive Note
  /-- A mark was invoked. -/
  | mark (label : String)
  /-- A hold ended. -/
  | released (parameter : String)
  /-- A probe was invoked. -/
  | probe (tag : String) (index : Int) (nested : NestedId) (values : List Value)
  /-- A probe was polled. -/
  | poll (tag : String) (polled : Nat) (index : Int)
  /-- A parameter. -/
  | read (name : String) (value : Option Value)
  /-- The time. -/
  | clock (clock : Clock)
  /-- Whether a stop is requested. -/
  | stopping (requested : Bool)
  /-- The cursor, and the position it stands for. -/
  | index (index : Int) (position : Option Nat)

namespace Action

/-- Does one thing. -/
def run (a : Action) (s : Surroundings) : Surroundings × List Note :=
  match a with
  | .advance count => ({ s with cursor := s.cursor.advance count }, [])
  | .rewind count => ({ s with cursor := s.cursor.rewind count }, [])
  | .moveTo position => ({ s with cursor := s.cursor.set position }, [])
  | .stop => ({ s with stopRequested := true }, [])
  | .write name value => ({ s with parameters := s.parameters.set name value }, [])
  | .remove name => ({ s with parameters := s.parameters.remove name }, [])
  | .read name type => (s, [.read name ((s.parameters.value? name).bind (·.ofType? type))])
  | .clock => (s, [.clock s.clock])
  | .stopping => (s, [.stopping s.stopRequested])
  | .index => (s, [.index s.cursor.index s.cursor.position?])

/-- Does one thing after another. -/
def runAll : List Action → Surroundings → Surroundings × List Note
  | [], s => (s, [])
  | a :: rest, s =>
    let (s, notes) := a.run s
    let (s, more) := runAll rest s
    (s, notes ++ more)

end Action

/-- Invokes a stand-in. -/
def invoke (b : StandIn) (call : Call) (s : Surroundings) : Reaction Note × Option Waiting :=
  match b with
  | .mark =>
    let label := (call.values.head?.bind (Value.get? String)).getD ""
    (⟨s, [.mark label]⟩, none)
  | .hold parameter => (⟨s, []⟩, some (.hold parameter))
  | .probe tag actions polls =>
    let note := .probe tag s.cursor.index call.nested call.values
    let (s, notes) := Action.runAll actions s
    (⟨s, note :: notes⟩, polls.map fun polls => .probe tag polls 0)

/-- Polls a stand-in. -/
def poll (w : Waiting) (s : Surroundings) : Reaction Note × Progress × Waiting :=
  match w with
  | .hold parameter =>
    if s.parameters.getD Bool parameter then
      (⟨s, [.released parameter]⟩, .done, .hold parameter)
    else (⟨s, []⟩, .pending, .hold parameter)
  | .probe tag polls polled =>
    let note := .poll tag polled s.cursor.index
    let (s, notes) := Action.runAll (polls[polled]?.getD []) s
    (⟨s, note :: notes⟩, .doneIf (polls.length ≤ polled + 1), .probe tag polls (polled + 1))

/-- The host whose nodes are stand-ins. -/
def stage : Host where
  Behavior := StandIn
  Work := Waiting
  Note := Note
  invoke := invoke
  poll := poll

namespace StandIn

/-- A mark with a label, which players may override. -/
def markNode {σ : Type} (label : String) : HostNode stage σ where
  kind := "Mark"
  fields := [⟨"Label", true, .new (.string label)⟩]
  behavior := mark

/-- A hold on a parameter. -/
def holdNode {σ : Type} (parameter : String) : HostNode stage σ where
  kind := "Hold"
  behavior := hold parameter

/-- A probe with a field for each of the given values, labelled by their numbers. -/
def probeNode {σ : Type} (tag : String) (values : List Value) (actions : List Action)
    (polls : Option (List (List Action))) : HostNode stage σ where
  kind := "Probe"
  fields := values.mapIdx fun i value => ⟨"F" ++ toString i, true, .new value⟩
  behavior := probe tag actions polls

end StandIn

end Sequencer.Rehearsal
