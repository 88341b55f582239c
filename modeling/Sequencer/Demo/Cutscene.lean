import Sequencer.Player.Basic

/-!
# Sequencer.Demo.Cutscene

A small cutscene, written with the built-in nodes only: an intro that a parameter skips, a hero who
arrives while a door opens, and a finale among sparkles.

* `cutscene`: the template, with the occurrence of the sparkles;
* `customize`: what a player with a taste of its own overrides.
-/

namespace Sequencer.Demo

/-- What authors leave behind while they write sequences. -/
structure Desk where
  /-- How many identities were given out. -/
  ids : Nat := 0
  /-- What the edits noticed, in order. -/
  notices : List Notice := []

/-- The writing of something. -/
abbrev Authoring := StateM Desk

/-- A new identity. -/
def freshUuid : Authoring Uuid := do
  let n := (← get).ids + 1
  modify ({ · with ids := n })
  return .ofNat n

/-- A node that is about to be written. -/
abbrev Draft := Authoring (SequenceNode .none)

/-- Writes a sequence, node after node. -/
def write (name : String) (drafts : List Draft) (parallel : Bool := false) :
    Authoring (Sequence .none) := do
  let mut s := Sequence.new ⟨← freshUuid⟩ name parallel
  for draft in drafts do
    let node ← draft
    let addition := Sequence.Editing.add .wrapping ⟨← freshUuid⟩ node
    let (_, edited) := Id.run (addition.run (.unchanged s))
    modify fun desk => { desk with notices := desk.notices ++ edited.notices }
    s := edited.sequence
  return s

/-- Nests a sequence under a new identity. -/
def nest (inner : Sequence .none) (loops : LoopCount) : Draft := do
  return .nested inner ⟨← freshUuid⟩ loops

/-- A log message for players to read. -/
def say (text : String) : Draft := pure (.log (.new text) .info)

/-- A pause. -/
def pause (seconds : Single) : Draft := pure (.wait (.new seconds))

/-- One sparkle. -/
def sparkle : Authoring (Sequence .none) :=
  write "Sparkle" [pure (.log (.new "*sparkle*") .debug), pause 0.1]

/-- The finale, whose nodes all run at once. -/
def finale : Authoring (Sequence .none) :=
  write "Finale" [say "Curtain falls", pause 0.5] true

/-- The opening of the door. -/
def door : Authoring (Sequence .none) :=
  write "Door" [pause 0.25, pure (.setParameter "door_open" (.bool true))]

/-- The cutscene, and the occurrence of the sparkles in it. -/
def cutscene : Authoring (Sequence .none × NestedId) := do
  let sparkle ← sparkle
  let sparkles : NestedId := ⟨← freshUuid⟩
  let finale ← finale
  let scene ← write "Cutscene"
    [pure (.skipIf "skip_intro" true 2),
     say "Once upon a time...",
     pause 1.0,
     pure (.parallelNext 3),
     say "The hero arrives",
     pause 0.75,
     do nest (← door) .once,
     pure (.waitUntil "door_open" true),
     pure (.parallelNext 2),
     pure (.nested sparkle sparkles (.times 5)),
     nest finale (.times 2),
     say "The end"]
  return (scene, sparkles)

/-- The customizing of a player. A refusal ends it, and what was bound before it stays bound. -/
abbrev Customizing := ExceptT BindingError (StateM (Player .none))

/-- Binds an override value. -/
def bindOverride (o : Occurrence) (index : OverrideIndex) (value : Value) : Customizing Unit :=
  ExceptT.mk fun player => player.setOverride o index value

/-- Binds the values of a player with a taste of its own: the hero takes longer and is a stranger,
and the sparkles have another text. -/
def customize (scene : Sequence .none) (sparkles : NestedId) : Customizing Unit := do
  for d in scene.registry do
    if d.label = "Seconds" ∧ d.defaultValue == .float 0.75 then
      bindOverride ⟨scene.id, .root⟩ d.index (.float 1.5)
    if d.label = "Message" ∧ d.defaultValue == .string "The hero arrives" then
      bindOverride ⟨scene.id, .root⟩ d.index (.string "A stranger arrives")
  let group := (← get).playback.bindings.groups.find? (·.nested == sparkles)
  match group.bind fun g => g.slots.head?.map (g.key, ·.index) with
  | some (occurrence, index) => bindOverride occurrence index (.string "*twinkle*")
  | none => return

end Sequencer.Demo
