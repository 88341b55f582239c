import Sequencer.Proofs.Playback.Scope

/-!
# Sequencer.Proofs.Pass.Arrangement

The arrangement of a sequence: what matters of its nodes for the order in which a pass goes through
them. A `Shape` tells parallel blocks from other nodes, and among these the ones that never move the
cursor back. Nothing else about the nodes is said, so that an arrangement stands for every pattern
of immediate completion and suspension.

* `Shape.reach`: where the block at a position ends;
* `Shape.Laminar`: no block reaches past the end of a block around it;
* `Shape.EndsSteady`: no block ends with a node that may move the cursor back;
* `Sequence.Fits`: a sequence has an arrangement;
* `Pass`: the steps of one pass, with the invocations in them;
* `AtMostOnce`: no position is invoked twice.
-/

namespace Sequencer

variable {H : Host}

/-! ### Arrangements -/

/-- What matters of a node for the order in which a pass goes through its sequence. -/
inductive Shape
  /-- A parallel block over the next nodes. -/
  | block (count : Nat)
  /-- A node that never moves the cursor back, and neither does its task. -/
  | steady
  /-- Any other node. It may move the cursor anywhere, at once or in a later step. -/
  | free
  deriving DecidableEq

namespace Shape

/-- The position behind the nodes of the block at `i`. Where there is no block, this is the
position behind `i`. -/
def reach (shapes : List Shape) (i : Nat) : Nat :=
  match shapes[i]? with
  | some (.block count) => min (i + 1 + count) shapes.length
  | _ => i + 1

/-- No block reaches past the end of a block around it. -/
def Laminar (shapes : List Shape) : Prop :=
  ∀ i < shapes.length, ∀ j < reach shapes i, i < j → reach shapes j ≤ reach shapes i

/-- The last node of each block that has nodes is not free. -/
def EndsSteady (shapes : List Shape) : Prop :=
  ∀ i < shapes.length, i + 1 < reach shapes i → shapes[reach shapes i - 1]? ≠ some .free

instance (shapes : List Shape) : Decidable (Laminar shapes) := by
  unfold Laminar; infer_instance

instance (shapes : List Shape) : Decidable (EndsSteady shapes) := by
  unfold EndsSteady; infer_instance

theorem reach_of_block {shapes : List Shape} {i count : Nat}
    (h : shapes[i]? = some (.block count)) :
    reach shapes i = min (i + 1 + count) shapes.length := by
  rw [reach, h]

theorem reach_of_not_block {shapes : List Shape} {i : Nat}
    (h : ∀ count, shapes[i]? ≠ some (.block count)) : reach shapes i = i + 1 := by
  unfold reach
  split
  · rename_i count hshape
    exact absurd hshape (h count)
  · rfl

theorem exists_block {shapes : List Shape} {i : Nat} (h : i + 1 < reach shapes i) :
    ∃ count, shapes[i]? = some (.block count) := by
  refine Classical.byContradiction fun hnot => ?_
  have := reach_of_not_block fun count hblock => hnot ⟨count, hblock⟩
  omega

theorem lt_reach (shapes : List Shape) (i : Nat) : i < reach shapes i := by
  unfold reach
  split
  · rename_i hshape
    have hi := (List.getElem?_eq_some_iff.mp hshape).1
    omega
  · omega

theorem reach_le {shapes : List Shape} {i : Nat} (h : i < shapes.length) :
    reach shapes i ≤ shapes.length := by
  unfold reach
  split
  · omega
  · omega

end Shape

/-! ### Nodes that never move the cursor back -/

/-- Host work in `W` never moves the cursor back, and polls of it leave work in `W`. -/
structure Host.Steady (H : Host) (W : H.Work → Prop) : Prop where
  /-- A poll leaves the cursor where it is, or moves it forward. -/
  forward : ∀ w, W w → ∀ around : Surroundings,
    around.cursor.index ≤ (H.poll w around).1.surroundings.cursor.index
  /-- A poll leaves work of this kind. -/
  stays : ∀ w, W w → ∀ around, W (H.poll w around).2.2

/-- A node that never moves the cursor back at an occurrence, and neither does its task. -/
def Node.Steady (b : Bindings) (o : Occurrence) : SequenceNode H → Prop
  | .skip count => 0 ≤ (b.resolve count o).toInt
  | .parallelNext _ => False
  | .host n => ∃ W, H.Steady W ∧ ∀ (call : Call) (around : Surroundings),
      around.cursor.index ≤ (H.invoke n.behavior call around).1.surroundings.cursor.index ∧
      ∀ w ∈ (H.invoke n.behavior call around).2, W w
  | _ => True

/-- A node has a shape. -/
def Shape.Fits (b : Bindings) (o : Occurrence) : Shape → SequenceNode H → Prop
  | .block count, node => node = .parallelNext count
  | .steady, node => node.Steady b o
  | .free, node => ∀ count, node ≠ .parallelNext count

/-- The nodes of a sequence have the shapes of an arrangement. -/
structure Sequence.Fits (s : Sequence H) (nested : NestedId) (shapes : List Shape)
    (b : Bindings) : Prop where
  /-- There is a shape for each node. -/
  length_eq : s.length = shapes.length
  /-- Each node has its shape. -/
  fits : ∀ {i : Nat} {shape : Shape} {entry : SequenceEntry H}, shapes[i]? = some shape →
    s.nodes[i]? = some entry → shape.Fits b ⟨s.id, nested⟩ entry.node

/-! ### One pass -/

/-- One pass over `s`, as far as it has come, and the invocations in it, newest first. The steps are
part of a larger play: between two of them everything but the run may change, as long as the
bindings are in `B`. -/
inductive Pass (s : Sequence H) (nested : NestedId) (B : Bindings → Prop) :
    SequenceRun H → List (Invocation H) → Prop
  /-- No step was taken. -/
  | start : Pass s nested B (.new s nested) []
  /-- One more step was taken. -/
  | step {run run' : SequenceRun H} {is : List (Invocation H)} {fuel : Nat}
      {pb pb' : Playback H} {progress : Progress} {events : List (Event H)} :
      Pass s nested B run is → B pb.bindings →
      run.step (Task.poll fuel) fuel pb = some (progress, run', pb') →
      pb'.history = events ++ pb.history →
      Pass s nested B run' (events.filterMap Event.invocation? ++ is)

/-- Each position of `s` is invoked at most once. -/
def AtMostOnce (s : Sequence H) (is : List (Invocation H)) : Prop :=
  is.Pairwise fun i j => i.sequence = s → j.sequence = s → i.position ≠ j.position

/-- The nodes of `s` among these, newest first, were invoked in list order, from position `low` on
and before position `high`. -/
structure Ascends (s : Sequence H) (low high : Nat) (is : List (Invocation H)) : Prop where
  /-- Later invocations are at higher positions. -/
  ordered : is.Pairwise fun i j => i.sequence = s → j.sequence = s → j.position < i.position
  /-- The positions are within the bounds. -/
  within : ∀ i ∈ is, i.sequence = s → low ≤ i.position ∧ i.position < high

namespace Ascends

variable {s : Sequence H} {low mid high : Nat} {is js : List (Invocation H)}

/-- Invocations of other sequences do not matter. -/
theorem of_foreign (h : ∀ i ∈ is, i.sequence ≠ s) : Ascends s low high is where
  ordered := List.pairwise_of_forall_mem_list fun i hi _ _ hs => absurd hs (h i hi)
  within i hi hs := absurd hs (h i hi)

theorem nil : Ascends s low high [] := of_foreign (by simp)

/-- One invocation, and then some of other sequences. -/
theorem snoc_foreign {i : Invocation H} (h : ∀ j ∈ js, j.sequence ≠ s)
    (hi : low ≤ i.position ∧ i.position < high) : Ascends s low high (js ++ [i]) where
  ordered := by
    refine List.pairwise_append.mpr ⟨(of_foreign h : Ascends s low high js).ordered, by simp, ?_⟩
    intro j hj _ _ hs
    exact absurd hs (h j hj)
  within j hj hs := by
    rcases List.mem_append.mp hj with hj | hj
    · exact absurd hs (h j hj)
    · exact List.mem_singleton.mp hj ▸ hi

/-- One invocation. -/
theorem single {i : Invocation H} (hi : low ≤ i.position ∧ i.position < high) :
    Ascends s low high [i] :=
  snoc_foreign (fun _ hj => absurd hj List.not_mem_nil) hi

theorem mono (h : Ascends s low mid is) {low' : Nat} (hlow : low' ≤ low) (hmid : mid ≤ high) :
    Ascends s low' high is where
  ordered := h.ordered
  within i hi hs :=
    ⟨Nat.le_trans hlow (h.within i hi hs).1, Nat.lt_of_lt_of_le (h.within i hi hs).2 hmid⟩

/-- Later invocations continue behind the earlier ones. -/
theorem append (h : Ascends s low mid is) (h' : Ascends s mid high js) (hlow : low ≤ mid)
    (hhigh : mid ≤ high) : Ascends s low high (js ++ is) where
  ordered := by
    refine List.pairwise_append.mpr ⟨h'.ordered, h.ordered, ?_⟩
    intro j hj i hi hjs his
    exact Nat.lt_of_lt_of_le (h.within i hi his).2 (h'.within j hj hjs).1
  within i hi hs := by
    rcases List.mem_append.mp hi with hi | hi
    · exact ⟨Nat.le_trans hlow (h'.within i hi hs).1, (h'.within i hi hs).2⟩
    · exact ⟨(h.within i hi hs).1, Nat.lt_of_lt_of_le (h.within i hi hs).2 hhigh⟩

theorem atMostOnce (h : Ascends s low high is) : AtMostOnce s is :=
  h.ordered.imp fun hlt his hjs => Nat.ne_of_gt (hlt his hjs)

end Ascends

end Sequencer
