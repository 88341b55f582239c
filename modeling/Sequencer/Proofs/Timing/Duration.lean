import Sequencer.Playback.Invoke

/-!
# Sequencer.Proofs.Timing.Duration

How many steps a sequence takes, and in which of them it invokes which node.

`Sequence.Timed` singles out the sequences whose timing does not depend on anything else: their
nodes write parameters or log lines, wait for steps or nest sequences of the same kind, and in a
list that is gone through in order they may be put into blocks. For these,

* `Sequence.duration` is the number of steps that pass until the sequence is done;
* `Sequence.cues` lists the invocations, each with its step.

In the lists of nodes below, a number counts the first nodes of the list that are branches of a
block: those that are meant, or those that are passed over because the block has dealt with them.
-/

namespace Sequencer

variable {H : Host}

/-- Host code that is finished at once, does not move the cursor and does not ask for a stop. -/
def Host.Instant (H : Host) (b : H.Behavior) : Prop :=
  ∀ (call : Call) (around : Surroundings),
    (H.invoke b call around).2 = Option.none ∧
    (H.invoke b call around).1.surroundings.cursor = around.cursor ∧
    ((H.invoke b call around).1.surroundings.stopRequested = true → around.stopRequested = true)

/-- The number of branches that a node demands, if it is the head of a block. -/
def Node.branchCount? : SequenceNode H → Option Nat
  | .parallelNext count => some count
  | _ => none

/-! ### Timed sequences -/

mutual

/-- The timing of the sequence is determined by its structure. -/
def Sequence.Timed : Sequence H → Prop
  | ⟨_, _, parallel, nodes, _⟩ =>
    -- No list in memory is longer.
    (nodes.length : Int) ≤ Cursor.highest ∧
      if parallel then BranchesTimed nodes nodes.length else ItemsTimed nodes 0
termination_by structural s => s

/-- The list has so many nodes, and they are no heads of blocks. -/
def BranchesTimed : List (Entry H (Sequence H)) → Nat → Prop
  | _, 0 => True
  | [], _ + 1 => False
  | ⟨_, _, node⟩ :: rest, count + 1 => node.Timed ∧ BranchesTimed rest count
termination_by structural nodes => nodes

/-- Behind the nodes that are passed over there are single nodes and complete blocks. -/
def ItemsTimed : List (Entry H (Sequence H)) → Nat → Prop
  | [], _ => True
  | _ :: rest, passed + 1 => ItemsTimed rest passed
  | ⟨_, _, node⟩ :: rest, 0 =>
    match node.branchCount? with
    | some count => BranchesTimed rest count ∧ ItemsTimed rest count
    | none => node.Timed ∧ ItemsTimed rest 0
termination_by structural nodes => nodes

/-- A node that is no head of a block, and whose timing is determined by its structure. -/
def Node.Timed : Node H (Sequence H) → Prop
  | .setParameter .. | .log .. | .waitFrames _ => True
  | .nested inner _ (.times _ _) => inner.Timed
  | .host n => H.Instant n.behavior
  | _ => False
termination_by structural node => node

end

theorem BranchesTimed.le_length {nodes : List (Entry H (Sequence H))} {count : Nat}
    (h : BranchesTimed nodes count) : count ≤ nodes.length := by
  induction count generalizing nodes with
  | zero => exact Nat.zero_le _
  | succ count ih =>
      rcases nodes with _ | ⟨entry, rest⟩
      · exact h.elim
      · exact Nat.succ_le_succ (ih h.2)

/-! ### Durations -/

mutual

/-- The number of steps until the sequence is done: for nodes in list order the sum over single
nodes and blocks, otherwise that of the longest node. -/
def Sequence.duration : Sequence H → Nat
  | ⟨_, _, parallel, nodes, _⟩ => if parallel then longest nodes nodes.length else total nodes 0
termination_by structural s => s

/-- The duration of the longest one among the first nodes. -/
def longest : List (Entry H (Sequence H)) → Nat → Nat
  | _, 0 => 0
  | [], _ + 1 => 0
  | ⟨_, _, node⟩ :: rest, count + 1 => max node.duration (longest rest count)
termination_by structural nodes => nodes

/-- The sum over single nodes and blocks. -/
def total : List (Entry H (Sequence H)) → Nat → Nat
  | [], _ => 0
  | _ :: rest, passed + 1 => total rest passed
  | ⟨_, _, node⟩ :: rest, 0 =>
    match node.branchCount? with
    | some count => longest rest count + total rest count
    | none => node.duration + total rest 0
termination_by structural nodes => nodes

/-- The duration of a node that is no head of a block. -/
def Node.duration : Node H (Sequence H) → Nat
  | .waitFrames frames => frames
  | .nested inner _ (.times count _) => count * inner.duration
  | _ => 0
termination_by structural node => node

end

/-! ### Cues -/

/-- When a node is to be invoked. -/
structure Cue (H : Host) where
  /-- The running sequence. -/
  sequence : Sequence H
  /-- The occurrence of it. -/
  nested : NestedId
  /-- The node's position. -/
  position : Nat
  /-- The step. -/
  frame : Nat

mutual

/-- The invocations in one pass over a sequence that begins in step `frame`. -/
def Sequence.cues : Sequence H → NestedId → Nat → List (Cue H)
  | ⟨id, name, parallel, nodes, registry⟩, nested, frame =>
    if parallel then
      branchCues nodes nodes.length ⟨id, name, parallel, nodes, registry⟩ nested 0 frame
    else itemCues nodes 0 ⟨id, name, parallel, nodes, registry⟩ nested 0 frame
termination_by structural s => s

/-- The first nodes begin together. -/
def branchCues :
    List (Entry H (Sequence H)) → Nat → Sequence H → NestedId → Nat → Nat → List (Cue H)
  | _, 0, _, _, _, _ => []
  | [], _ + 1, _, _, _, _ => []
  | ⟨_, _, node⟩ :: rest, count + 1, s, nested, position, frame =>
    ⟨s, nested, position, frame⟩ :: node.cues frame
      ++ branchCues rest count s nested (position + 1) frame
termination_by structural nodes => nodes

/-- Single nodes and blocks begin one after another. -/
def itemCues :
    List (Entry H (Sequence H)) → Nat → Sequence H → NestedId → Nat → Nat → List (Cue H)
  | [], _, _, _, _, _ => []
  | _ :: rest, passed + 1, s, nested, position, frame =>
    itemCues rest passed s nested (position + 1) frame
  | ⟨_, _, node⟩ :: rest, 0, s, nested, position, frame =>
    ⟨s, nested, position, frame⟩ ::
      match node.branchCount? with
      | some count =>
        branchCues rest count s nested (position + 1) frame
          ++ itemCues rest count s nested (position + 1) (frame + longest rest count)
      | none =>
        node.cues frame ++ itemCues rest 0 s nested (position + 1) (frame + node.duration)
termination_by structural nodes => nodes

/-- The invocations inside of a node that begins in step `frame`: those of its passes, one after
another. -/
def Node.cues : Node H (Sequence H) → Nat → List (Cue H)
  | .nested inner identity (.times count _), frame =>
    (List.range count).flatMap fun pass => inner.cues identity (frame + pass * inner.duration)
  | _, _ => []
termination_by structural node => node

end

/-! ### Cues lie within the duration -/

/-- The cue is not before the frame, and at most so many steps behind it. -/
def Cue.Within (cue : Cue H) (frame duration : Nat) : Prop :=
  frame ≤ cue.frame ∧ cue.frame ≤ frame + duration

theorem Cue.Within.mono {cue : Cue H} {f g m n : Nat} (h : cue.Within g m) (hf : f ≤ g)
    (hn : g + m ≤ f + n) : cue.Within f n :=
  ⟨Nat.le_trans hf h.1, Nat.le_trans h.2 hn⟩

mutual

theorem Sequence.cues_within : ∀ (s : Sequence H) (nested : NestedId) (f : Nat),
    ∀ cue ∈ s.cues nested f, cue.Within f s.duration
  | ⟨id, name, parallel, nodes, registry⟩, nested, f, cue, hcue => by
      simp only [Sequence.cues, Sequence.duration] at hcue ⊢
      split at hcue
      · rename_i hpar
        rw [if_pos hpar]
        exact branchCues_within nodes _ _ nested 0 f cue hcue
      · rename_i hpar
        rw [if_neg hpar]
        exact itemCues_within nodes 0 _ nested 0 f cue hcue
termination_by structural s => s

theorem branchCues_within : ∀ (nodes : List (Entry H (Sequence H))) (count : Nat) (s : Sequence H)
    (nested : NestedId) (position f : Nat),
    ∀ cue ∈ branchCues nodes count s nested position f, cue.Within f (longest nodes count)
  | _, 0, _, _, _, _, _, hcue => by simp [branchCues] at hcue
  | [], _ + 1, _, _, _, _, _, hcue => by simp [branchCues] at hcue
  | ⟨_, _, node⟩ :: rest, count + 1, s, nested, position, f, cue, hcue => by
      simp only [branchCues, List.mem_append, List.mem_cons] at hcue
      simp only [longest]
      rcases hcue with (rfl | hcue) | hcue
      · exact ⟨Nat.le_refl f, Nat.le_add_right f _⟩
      · have h := node.cues_within f cue hcue
        exact h.mono (Nat.le_refl f) (by omega)
      · have h := branchCues_within rest count s nested (position + 1) f cue hcue
        exact h.mono (Nat.le_refl f) (by omega)
termination_by structural nodes => nodes

theorem itemCues_within : ∀ (nodes : List (Entry H (Sequence H))) (passed : Nat) (s : Sequence H)
    (nested : NestedId) (position f : Nat),
    ∀ cue ∈ itemCues nodes passed s nested position f, cue.Within f (total nodes passed)
  | [], _, _, _, _, _, _, hcue => by simp [itemCues] at hcue
  | _ :: rest, passed + 1, s, nested, position, f, cue, hcue =>
      itemCues_within rest passed s nested (position + 1) f cue hcue
  | ⟨_, _, node⟩ :: rest, 0, s, nested, position, f, cue, hcue => by
      simp only [itemCues, List.mem_cons] at hcue
      simp only [total]
      rcases hcue with rfl | hcue
      · exact ⟨Nat.le_refl f, Nat.le_add_right f _⟩
      cases hcount : node.branchCount? with
      | some count =>
          rw [hcount] at hcue
          rcases List.mem_append.mp hcue with hcue | hcue
          · have h := branchCues_within rest count s nested (position + 1) f cue hcue
            exact h.mono (Nat.le_refl f) (by simp only; omega)
          · have h := itemCues_within rest count s nested (position + 1) _ cue hcue
            exact h.mono (Nat.le_add_right f _) (by simp only; omega)
      | none =>
          rw [hcount] at hcue
          rcases List.mem_append.mp hcue with hcue | hcue
          · have h := node.cues_within f cue hcue
            exact h.mono (Nat.le_refl f) (by simp only; omega)
          · have h := itemCues_within rest 0 s nested (position + 1) _ cue hcue
            exact h.mono (Nat.le_add_right f _) (by simp only; omega)
termination_by structural nodes => nodes

theorem Node.cues_within : ∀ (node : SequenceNode H) (f : Nat),
    ∀ cue ∈ node.cues f, cue.Within f node.duration
  | .nested inner identity (.times count _), f, cue, hcue => by
      simp only [Node.cues, List.mem_flatMap, List.mem_range] at hcue
      obtain ⟨pass, hpass, hcue⟩ := hcue
      have h := inner.cues_within identity _ cue hcue
      -- The pass ends when the next one begins, and no later than the last one.
      have hle : (pass + 1) * inner.duration ≤ count * inner.duration :=
        Nat.mul_le_mul_right _ hpass
      rw [Nat.add_mul, Nat.one_mul] at hle
      exact h.mono (Nat.le_add_right f _) (by simp only [Node.duration]; omega)
  | .nested _ _ .forever, _, _, hcue | .skip _, _, _, hcue | .skipIf .., _, _, hcue
  | .parallelNext _, _, _, hcue | .stop, _, _, hcue | .wait _, _, _, hcue
  | .waitFrames _, _, _, hcue | .waitUntil .., _, _, hcue | .setParameter .., _, _, hcue
  | .log .., _, _, hcue | .host _, _, _, hcue => by simp [Node.cues] at hcue
termination_by structural node => node

end

end Sequencer
