import Sequencer.Sequence

/-!
# Sequencer.Proofs.Nesting

Sequences within sequences. A sequence contains what it nests, so that nothing is nested in itself:
what holds of a sequence as soon as it holds of all that it nests, holds of every sequence
(`Sequence.nestingInduction`).
-/

namespace Sequencer

variable {H : Host}

namespace Sequence

theorem mem_nestedSequences {s inner : Sequence H} {identity : NestedId} {entry : SequenceEntry H}
    (hentry : entry ∈ s.nodes) {loops : LoopCount} (hnode : entry.node = .nested inner identity loops) :
    (identity, inner) ∈ s.nestedSequences :=
  List.mem_filterMap.mpr ⟨entry, hentry, by rw [hnode]; rfl⟩

end Sequence

/-- A set of sequences that contains what the nodes of its members play. -/
def NestingClosed (Q : Sequence H → Prop) : Prop :=
  ∀ s, Q s → ∀ entry ∈ s.nodes, ∀ inner identity loops,
    entry.node = .nested inner identity loops → Q inner

/-- A sequence is smaller than another, as those are that the other contains. -/
def Sequence.Below (s q : Sequence H) : Prop := sizeOf q < sizeOf s

theorem Node.sizeOf_nested {node : SequenceNode H} {inner : Sequence H} {identity : NestedId}
    (h : node.nested? = some (identity, inner)) : sizeOf inner < sizeOf node := by
  cases node with
  | nested s i loops =>
      obtain ⟨rfl, rfl⟩ := Prod.mk.inj (Option.some.inj h)
      simp only [Node.nested.sizeOf_spec]
      omega
  | host n =>
      obtain ⟨kind, description, preview, fields, behavior, nested⟩ := n
      obtain rfl : nested = some (identity, inner) := h
      simp only [Node.host.sizeOf_spec, HostNode.mk.sizeOf_spec, Option.some.sizeOf_spec,
        Prod.mk.sizeOf_spec]
      omega
  | _ => cases h

theorem Sequence.below_of_mem {s inner : Sequence H} {identity : NestedId}
    (h : (identity, inner) ∈ s.nestedSequences) : s.Below inner := by
  obtain ⟨entry, hentry, hnested⟩ := List.mem_filterMap.mp h
  have hlist := List.sizeOf_lt_of_mem hentry
  have hnode := Node.sizeOf_nested hnested
  obtain ⟨id, name, parallel, nodes, registry⟩ := s
  obtain ⟨eid, ename, node⟩ := entry
  simp only [Below, Sequence.mk.sizeOf_spec, Entry.mk.sizeOf_spec] at hlist hnode ⊢
  omega

theorem Sequence.below_nested {s inner : Sequence H} {entry : SequenceEntry H}
    (hentry : entry ∈ s.nodes) {identity : NestedId} {loops : LoopCount}
    (hnode : entry.node = .nested inner identity loops) : s.Below inner :=
  below_of_mem (mem_nestedSequences hentry hnode)

theorem Sequence.below_closed (s : Sequence H) : NestingClosed s.Below :=
  fun _ hq _ hentry _ _ _ hnode => Nat.lt_trans (below_nested hentry hnode) hq

theorem Sequence.Below.ne {s q : Sequence H} (h : s.Below q) : q ≠ s :=
  fun heq => Nat.lt_irrefl _ (heq ▸ h : s.Below s)

namespace Sequence

theorem nestingInduction {P : Sequence H → Prop}
    (h : ∀ s, (∀ identity inner, (identity, inner) ∈ s.nestedSequences → P inner) → P s)
    (s : Sequence H) : P s :=
  h s fun _ inner _ => nestingInduction h inner
termination_by sizeOf s
decreasing_by exact below_of_mem ‹_›

end Sequence

end Sequencer
