import Sequencer.Binding.Occurrence

/-!
# Sequencer.Binding.Reconcile

Brings bindings in line with a root sequence and everything it nests. Each reachable occurrence of
a sequence with override fields gets one group with one slot for each entry of the registry. A slot
whose address still exists keeps its state; a new entry gets a disabled slot with the template
value; a slot whose value is of another kind than its own is reset to that; groups and slots that
fit nothing are dropped.

Where several groups or slots have one address, the first one is taken up. The others are left
over, and the last of them moves into the place of the one that was taken.
-/

namespace Sequencer

/-- Takes the first element that satisfies a condition out of a list; the last element takes its
place. -/
def takeOut? {α : Type} (p : α → Bool) (xs : List α) : Option (α × List α) := do
  let i ← xs.findIdx? p
  let x ← xs[i]?
  let last ← xs.getLast?
  return (x, (xs.set i last).dropLast)

namespace Bindings

/-- The slots of a group during a reconciliation. -/
structure SlotPass where
  /-- Old slots not taken up yet. -/
  left : List Slot
  /-- The new slots. -/
  slots : List Slot := []
  /-- Slots created. -/
  added : Nat := 0
  /-- Slots reset. -/
  reset : Nat := 0
  /-- What there is to log. -/
  notices : List Notice := []

/-- Provides the slot of one registry entry. -/
def SlotPass.provide (sequence : String) (nested : NestedId) (p : SlotPass) (d : Descriptor) :
    SlotPass :=
  match takeOut? (fun s => d.isFor s.index s.type) p.left with
  | none => { p with slots := p.slots ++ [.disabled d], added := p.added + 1 }
  | some (slot, left) =>
    if slot.value.type = slot.type then { p with left, slots := p.slots ++ [slot] }
    else
      { p with
        left
        slots := p.slots ++ [.disabled d]
        reset := p.reset + 1
        notices := p.notices ++ [.slotReset slot.index sequence nested slot.value.type] }

/-- The groups during a reconciliation. -/
structure GroupPass where
  /-- Old groups not taken up yet. -/
  left : List Group
  /-- The new groups. -/
  groups : List Group := []
  /-- The counts so far. -/
  report : BindingReport := {}
  /-- What there is to log. -/
  notices : List Notice := []

/-- Provides the group of one reachable occurrence. -/
def GroupPass.provide {H : Host} (p : GroupPass) (r : Reached H) : GroupPass :=
  if r.sequence.registry.isEmpty then p
  else
    let (group, left, groupsAdded) :=
      match takeOut? (·.isFor r.key) p.left with
      | some (group, left) => (group, left, 0)
      | none => ({ sequence := r.sequence.id, nested := r.nested }, p.left, 1)
    let pass := r.sequence.registry.foldl (SlotPass.provide r.sequence.name r.nested)
      { left := group.slots }
    { left
      groups := p.groups ++ [{ group with name := r.sequence.name, slots := pass.slots }]
      report :=
        { p.report with
          groupsAdded := p.report.groupsAdded + groupsAdded
          slotsAdded := p.report.slotsAdded + pass.added
          slotsRemoved := p.report.slotsRemoved + pass.left.length
          slotsReset := p.report.slotsReset + pass.reset }
      notices := p.notices ++ pass.notices }

/-- Reconciled bindings, with what the reconciliation did. -/
structure Outcome where
  /-- The bindings afterwards. -/
  bindings : Bindings
  /-- The counts. -/
  report : BindingReport
  /-- What there is to log. -/
  notices : List Notice

/-- Reconciles bindings with a root sequence. -/
def reconcile {H : Host} (b : Bindings) (root : Sequence H) : Outcome :=
  let traversal := root.traverse
  let pass := traversal.reached.foldl GroupPass.provide { left := b.groups }
  let report := { pass.report with groupsRemoved := pass.left.length }
  { bindings := ⟨pass.groups⟩
    report
    notices :=
      traversal.notices ++ pass.notices
        ++ if report.isUnchanged then [] else [.bindingsReconciled root.name report] }

end Bindings

end Sequencer
