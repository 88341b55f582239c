import Sequencer.Override.Counting
import Sequencer.Override.Field

/-!
# Sequencer.Override.Registry

The registry of a sequence's override fields, and how it is reconciled with the fields that the
nodes declare.

A declared field whose address is in the registry and not yet claimed keeps it; every other field
gets the next index after the highest one. Entries that no field claims are dropped at the end.

* `Registry.reconcileM`: the whole pass over the declarations, in order, with any way of counting;
* `Reconciled.indices`: the index of each declared field, in the same order.
-/

namespace Sequencer

/-- The entries for a sequence's fields, in order of registration. -/
abbrev Registry := List Descriptor

/-- What a reconciliation did. -/
structure RegistryReport where
  /-- Entries created. -/
  added : Nat := 0
  /-- Entries dropped. -/
  removed : Nat := 0
  /-- Fields that carried an address which another field had claimed. -/
  reindexed : Nat := 0
  deriving DecidableEq, Repr

namespace RegistryReport

/-- Was everything in order already? -/
def isUnchanged (r : RegistryReport) : Bool := r == {}

end RegistryReport

namespace Registry

/-- A declared field and the node that declares it. -/
structure Claim where
  /-- The node. -/
  node : NodeId
  /-- The field. -/
  declaration : Declaration

/-- An entry during the pass. -/
structure Candidate where
  /-- The entry. -/
  entry : Descriptor
  /-- Has a field claimed it? -/
  claimed : Bool

/-- The pass over the declarations, so far. -/
structure Pass where
  /-- Old entries followed by the new ones. -/
  candidates : List Candidate
  /-- The next index to hand out. -/
  next : Nat
  /-- The indices of the fields passed, in order. -/
  indices : List OverrideIndex := []
  /-- The addresses that were found claimed already. -/
  duplicates : List OverrideKey := []

variable {m : Type → Type} [Monad m] (counting : Counting m)

/-- One past the highest index, or zero. -/
def nextIndexM (r : Registry) : m Nat :=
  r.foldlM (fun n d => do return max n (← counting.succ d.index.number)) 0

namespace Pass

/-- The pass before its first declaration. -/
def startM (r : Registry) : m Pass := do
  return { candidates := r.map (⟨·, false⟩), next := ← r.nextIndexM counting }

/-- Gives the field a fresh index. -/
def addFreshM (p : Pass) (c : Claim) : m Pass := do
  let next ← counting.succ p.next
  return { p with
    candidates := p.candidates ++ [⟨.ofDeclaration ⟨p.next⟩ c.node c.declaration, true⟩]
    next
    indices := p.indices ++ [⟨p.next⟩] }

/-- Lets the field claim the entry at a position. -/
def claim (p : Pass) (position : Nat) (index : OverrideIndex) (c : Claim) : Pass :=
  { p with
    candidates := p.candidates.set position ⟨.ofDeclaration index c.node c.declaration, true⟩
    indices := p.indices ++ [index] }

/-- Takes up one declared field. -/
def registerM (p : Pass) (c : Claim) : m Pass :=
  match c.declaration.key? with
  | none => p.addFreshM counting c
  | some key =>
    match p.candidates.findIdx? (·.entry.key == key) with
    | none => p.addFreshM counting c
    | some position =>
      if (p.candidates[position]?.map (·.claimed)).getD true then do
        let added ← p.addFreshM counting c
        return { added with duplicates := p.duplicates ++ [key] }
      else return p.claim position key.index c

/-- The entries that some field has claimed, in order. -/
def kept (p : Pass) : Registry := (p.candidates.filter (·.claimed)).map (·.entry)

end Pass

end Registry

/-- The outcome of a reconciliation. -/
structure Reconciled where
  /-- The registry afterwards. -/
  registry : Registry
  /-- The index of each declared field, in order of declaration. -/
  indices : List OverrideIndex
  /-- The addresses that were declared twice. -/
  duplicates : List OverrideKey
  /-- The counts. -/
  report : RegistryReport

namespace Registry

/-- What a pass over all declarations comes to. -/
def Pass.outcome (r : Registry) (p : Pass) : Reconciled where
  registry := p.kept
  indices := p.indices
  duplicates := p.duplicates
  report :=
    { added := p.candidates.length - r.length
      removed := p.candidates.length - p.kept.length
      reindexed := p.duplicates.length }

/-- Reconciles a registry with the declared fields. -/
def reconcileM {m : Type → Type} [Monad m] (counting : Counting m) (r : Registry)
    (claims : List Claim) : m Reconciled := do
  let pass ← claims.foldlM (Pass.registerM counting) (← Pass.startM counting r)
  return pass.outcome r

end Registry

end Sequencer
