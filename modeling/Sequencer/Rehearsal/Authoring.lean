import Sequencer.Rehearsal.Session

/-!
# Sequencer.Rehearsal.Authoring

Writing sequences in a session.

A sequence is a draft until something plays or nests it. From then on it is shared, and every edit
is refused: `openDraft` lets an edit in, `share` closes the draft.

A node is added by a `NodePlan` and referred to by the handle that it then gets. Changes of a
probe's fields take effect when the probe next declares them, which is when its sequence is
reconciled; `settle` brings them in.
-/

namespace Sequencer.Rehearsal.Step

/-! ### Sequences -/

/-- A sequence of the session. -/
def draft (name : String) : Step Draft := do
  orNoObject ((← get).sequences.lookup name)

/-- A sequence that is not shared yet. -/
def openDraft (name : String) : Step (Sequence stage) := do
  let d ← draft name
  if d.shared then throw .frozen
  return d.sequence

/-- Replaces a sequence that is not shared yet. -/
def putDraft (name : String) (sequence : Sequence stage) : Step Unit :=
  modify fun s => { s with sequences := s.sequences.put name { sequence } }

/-- A sequence to be played or nested; it is shared from now on. -/
def share (name : String) : Step (Sequence stage) := do
  let d ← draft name
  modify fun s => { s with sequences := s.sequences.put name { d with shared := true } }
  return d.sequence

/-- Changes the fields of a probe. A value of another kind than its field's is ignored. -/
def applyChange (c : FieldChange) (fields : List HostField) : List HostField :=
  let fields := match c.hide with
    | none => fields
    | some hidden => fields.mapIdx fun i f => { f with declared := !hidden.contains i }
  c.values.foldl (fun fields (i, value) =>
    fields.modify i fun f =>
      if f.field.value.type = value.type then { f with field := { f.field with value } } else f)
    fields

/-- Lets changes of a probe take effect. -/
def changed (changes : List (NodeId × FieldChange)) (e : SequenceEntry stage) :
    SequenceEntry stage :=
  match e.node with
  | .host n =>
    match n.behavior with
    | .probe .. =>
      let mine := (changes.filter (·.1 == e.id)).map (·.2)
      let fields := mine.foldl (fun fs c => applyChange c fs) n.fields
      { e with node := .host { n with fields } }
    | _ => e
  | _ => e

/-- Lets the changes of a sequence's probes take effect, because they are about to declare their
fields. -/
def settle (s : Sequence stage) : Step (Sequence stage) := do
  let changes := (← get).changes
  if changes.isEmpty then return s
  modify fun session =>
    { session with changes := changes.filter fun c => (s.find? c.1).isNone }
  return { s with nodes := s.nodes.map (changed changes) }

/-- Edits of the session's sequences. Their indices wrap around. -/
abbrev Editing := Sequence.Editing Id stage

/-- Edits a sequence, and takes over what the edit leaves. -/
def edit {α : Type} (name : String) (s : Sequence stage) (edit : Editing α) : Step α := do
  let (result, edited) := Id.run (edit.run (.unchanged s))
  report edited.notices
  putDraft name edited.sequence
  return result

/-- How a node of the session is referred to. -/
inductive NodeRef
  /-- By its handle. -/
  | handle (name : String)
  /-- By an identifier that no node has. -/
  | foreign (id : Uuid)

/-- The identifier of a node. -/
def nodeId : NodeRef → Step NodeId
  | .handle name => do orNoObject ((← get).handles.lookup name)
  | .foreign id => pure ⟨id⟩

/-- What a node is made of. -/
inductive Blueprint
  /-- A finished node. -/
  | node (n : SequenceNode stage)
  /-- A node that nests a sequence of the session, and is pointed at another one afterwards. -/
  | nested (sequence : String) (loops : Int) (identity : NestedId) (next : Option String)
  /-- A built-in node with the initial configuration of its kind. -/
  | standard (kind : String)

/-- The plan of a node to be added. -/
structure NodePlan where
  /-- What it is made of. -/
  blueprint : Blueprint
  /-- Its handle, if the plan names one. -/
  handle : Option String := none
  /-- The indices that its declared fields are to carry. -/
  indices : List Nat := []

/-- New identities for a node and a sequence that it brings along. -/
def freshIds : Step FreshIds := do
  return ⟨⟨← freshUuid⟩, ⟨← freshUuid⟩⟩

/-- The loop count that an author writes. -/
def loopCount (n : Int) : Step LoopCount :=
  match LoopCount.ofAuthored? n with
  | none => throw (.sequence (.invalidLoopCount n))
  | some count => pure count

/-- Makes the node of a plan. -/
def build (plan : NodePlan) : Step (SequenceNode stage) := do
  let node ← match plan.blueprint with
    | .node n => pure n
    | .nested sequence loops identity next => do
      let count ← loopCount loops
      let inner ← share sequence
      let inner ← match next with
        | none => pure inner
        | some next => share next
      pure (.nested inner identity count)
    | .standard kind => do
      orNoObject (Catalog.standard.createNode (← freshIds) kind)
  return node.assign (plan.indices.map (⟨·⟩))

/-- Gives an added node its handle. -/
def addHandle (plan : NodePlan) (id : NodeId) : Step String := do
  let s ← get
  let handle := plan.handle.getD ("n" ++ toString s.nodesAdded)
  set { s with nodesAdded := s.nodesAdded + 1, handles := (handle, id) :: s.handles }
  return handle

/-- Appends the node of a plan. -/
def addNode (name : String) (plan : NodePlan) : Step String := do
  let _ ← openDraft name
  let node ← build plan
  let s ← settle (← openDraft name)
  let id : NodeId := ⟨← freshUuid⟩
  let _ ← edit name s (Sequence.Editing.add .wrapping id node)
  addHandle plan id

/-- Makes a sequence and adds nodes to it. -/
def newSequence (name : String) (title : Option String) (id : Option Uuid) (parallel : Bool)
    (plans : List NodePlan) : Step (List String) := do
  let made := (← get).sequencesMade + 1
  modify ({ · with sequencesMade := made })
  putDraft name (.new ⟨id.getD (.ofNat made)⟩ (title.getD Sequence.untitled) parallel)
  plans.mapM (addNode name)

/-- Changes the name and the way of playback of a sequence. -/
def configureSequence (name : String) (title : Option String) (parallel : Option Bool) :
    Step (Sequence stage) := do
  let s ← openDraft name
  let s := { s with name := title.getD s.name, parallel := parallel.getD s.parallel }
  putDraft name s
  return s

/-- Inserts the node of a plan. -/
def insertNode (name : String) (position : Nat) (plan : NodePlan) : Step String := do
  let _ ← openDraft name
  let node ← build plan
  let s ← openDraft name
  if s.length < position then throw (.sequence (.indexOutOfRange position s.length))
  let s ← settle s
  let id : NodeId := ⟨← freshUuid⟩
  let id ← orRefused .sequence (← edit name s (.insert .wrapping position id node))
  addHandle plan id

/-- Removes a node. -/
def removeNode (name : String) (ref : NodeRef) : Step (Option (SequenceEntry stage)) := do
  let s ← openDraft name
  let id ← nodeId ref
  if (s.find? id).isNone then return none
  edit name (← settle s) (.erase .wrapping id)

/-- Moves a node. -/
def moveNode (name : String) (ref : NodeRef) (target : Nat) : Step Unit := do
  let s ← openDraft name
  let id ← nodeId ref
  -- probes declare their fields only if the move is one
  let s ← if (s.find? id).isSome ∧ target < s.length then settle s else pure s
  orRefused .sequence (← edit name s (.move .wrapping id target))

/-- Renames a node. -/
def renameNode (name : String) (ref : NodeRef) (title : String) : Step Bool := do
  let s ← openDraft name
  let id ← nodeId ref
  edit name s (.rename id title)

/-- Hands indices to the declared fields of a node, after changes of its fields. -/
def editNode (name : String) (ref : NodeRef) (indices : List Nat) (change : FieldChange) :
    Step (Option String) := do
  let s ← openDraft name
  let id ← nodeId ref
  modify fun session => { session with changes := session.changes ++ [(id, change)] }
  if (s.find? id).isNone then return none
  edit name (← settle s)
    (.edit .wrapping id fun node => (node.kind, node.assign (indices.map (⟨·⟩))))

/-- Reconciles the registry of a sequence. -/
def syncRegistry (name : String) : Step RegistryReport := do
  edit name (← settle (← openDraft name)) (.reconcile .wrapping)

/-- A sequence as it is now. -/
def sequence (name : String) : Step (Sequence stage) := do
  return (← draft name).sequence

/-- How a sequence's identifier is given. -/
inductive SequenceRef
  /-- By the name of a sequence. -/
  | named (name : String)
  /-- By itself. -/
  | id (id : Uuid)

/-- A sequence's identifier. -/
def sequenceId : SequenceRef → Step SequenceId
  | .named name => do return (← sequence name).id
  | .id id => pure ⟨id⟩

/-- The handle of a node, or its identifier if it has none. -/
def handleOf (s : Session) (id : NodeId) : String :=
  match s.handles.find? (·.2 == id) with
  | some (name, _) => name
  | none => toString id.uuid

/-! ### Catalogs -/

/-- A catalog of the session. -/
def catalog (name : String) : Step (Catalog stage) := do
  orNoObject ((← get).catalogs.lookup name)

/-- Takes over a catalog. -/
def putCatalog (name : String) (c : Catalog stage) : Step (Catalog stage) := do
  modify fun s => { s with catalogs := s.catalogs.put name c }
  return c

/-- Adds a kind to a catalog, created like a standard kind. -/
def registerKind (name kind : String) (category : Category) (description factory : String) :
    Step (Catalog stage) := do
  let c ← catalog name
  let model ← orNoObject (Catalog.standard.find? factory)
  let (c, notices) := c.register { model with kind, category, description }
  report notices
  putCatalog name c

end Sequencer.Rehearsal.Step
