import Mathlib.Data.List.Chain
import Mathlib.Logic.Relation
import Sequencer.Binding.Occurrence
import Sequencer.Proofs.Nesting

/-!
# Sequencer.Proofs.Binding.Occurrences

What a player of a root sequence can reach. The traversal keeps a list of what it found and never
adds an address twice; `Sequence.visits` is the plain depth-first walk below it, with all
repetitions.

* `Sequence.reached_traverse`: the traversal finds the first visits of the walk, in their order;
* `Sequence.mem_visits_iff`: the walk comes by exactly the ends of the ways down that enter no
  sequence identifier twice;
* `Sequence.Reaches.mem_visits`: if identifiers tell sequences apart, that is every way down.
-/

namespace Sequencer

open Relation

/-! ### First occurrences -/

section Firsts

variable {α κ : Type} [DecidableEq κ] (key : α → κ)

/-- The elements that come first with their key. -/
def firsts (xs : List α) : List α := xs.eraseDupsBy (key · == key ·)

theorem firsts_cons (x : α) (xs : List α) :
    firsts key (x :: xs) = x :: firsts key (xs.filter (key · ≠ key x)) := by
  rw [firsts, List.eraseDupsBy_cons]
  congr 2
  refine List.filter_congr fun y _ => ?_
  simp

theorem find?_filter_key (xs : List α) (x y : α) :
    (xs.filter (key · ≠ key y)).find? (key · == key x)
      = if key y = key x then none else xs.find? (key · == key x) := by
  rw [List.find?_filter]
  split
  · rename_i heq
    simp [heq]
  · rename_i hne
    congr 1
    funext z
    by_cases hz : key z = key x
    · simp [hz, Ne.symm hne]
    · simp [hz]

theorem mem_firsts_iff (xs : List α) {x : α} :
    x ∈ firsts key xs ↔ xs.find? (key · == key x) = some x := by
  match xs with
  | [] => simp [firsts]
  | y :: xs =>
      rw [firsts_cons, List.mem_cons, mem_firsts_iff (xs.filter _), find?_filter_key,
        List.find?_cons]
      by_cases hkey : key y = key x
      · simp [hkey, eq_comm]
      · have hne : x ≠ y := fun heq => hkey (heq ▸ rfl)
        rw [beq_eq_false_iff_ne.mpr hkey, if_neg hkey]
        simp [hne]
termination_by xs.length
decreasing_by exact Nat.lt_succ_of_le (List.length_filter_le _ _)

theorem firsts_sublist (xs : List α) : (firsts key xs).Sublist xs := by
  match xs with
  | [] => exact .refl _
  | x :: xs =>
      rw [firsts_cons]
      exact ((firsts_sublist (xs.filter _)).trans List.filter_sublist).cons_cons x
termination_by xs.length
decreasing_by exact Nat.lt_succ_of_le (List.length_filter_le _ _)

theorem nodup_firsts (xs : List α) : ((firsts key xs).map key).Nodup := by
  match xs with
  | [] => exact List.nodup_nil
  | x :: xs =>
      rw [firsts_cons, List.map_cons, List.nodup_cons]
      refine ⟨fun hmem => ?_, nodup_firsts (xs.filter _)⟩
      obtain ⟨y, hy, hkey⟩ := List.mem_map.mp hmem
      have hne := (List.mem_filter.mp ((firsts_sublist key _).subset hy)).2
      exact of_decide_eq_true hne hkey
termination_by xs.length
decreasing_by exact Nat.lt_succ_of_le (List.length_filter_le _ _)

/-- Elements one after the other, each one added unless its key is there. -/
theorem foldl_eq_firsts (known xs : List α) :
    xs.foldl (fun known x => if known.any (key · == key x) then known else known ++ [x]) known
      = known ++ firsts key (xs.filter fun x => !known.any (key · == key x)) := by
  induction xs generalizing known with
  | nil => simp [firsts]
  | cons x xs ih =>
      rw [List.foldl_cons, ih]
      cases hx : known.any (key · == key x) with
      | true => simp [hx]
      | false =>
          have hkeep : (x :: xs).filter (fun y => !known.any (key · == key y))
              = x :: xs.filter fun y => !known.any (key · == key y) :=
            List.filter_cons_of_pos (by simp [hx])
          rw [if_neg Bool.false_ne_true, hkeep, firsts_cons, List.append_assoc, List.filter_filter]
          rw [List.singleton_append]
          congr 3
          refine List.filter_congr fun y _ => ?_
          simp [eq_comm, Bool.and_comm, ← beq_eq_decide]

end Firsts

variable {H : Host}

/-! ### The walk -/

/-- The sequence of `r` nests that of `q`, under the identity of `q`. -/
def Reached.Nests (r q : Reached H) : Prop := (q.nested, q.sequence) ∈ r.sequence.nestedSequences

namespace Traversal

mutual

/-- The occurrences that a visit comes by, in order, as often as it comes by them. -/
def visits : Sequence H → NestedId → List SequenceId → List (Reached H)
  | ⟨id, name, parallel, nodes, registry⟩, nested, path =>
    if path.contains id then []
    else ⟨⟨id, name, parallel, nodes, registry⟩, nested⟩ :: visitsNodes nodes (id :: path)
termination_by structural s => s

/-- The same of what a list of nodes nests. -/
def visitsNodes : List (SequenceEntry H) → List SequenceId → List (Reached H)
  | [], _ => []
  | ⟨_, _, .nested s identity _⟩ :: rest, path =>
    visits s identity path ++ visitsNodes rest path
  | ⟨_, _, .host ⟨_, _, _, _, _, some (identity, s)⟩⟩ :: rest, path =>
    visits s identity path ++ visitsNodes rest path
  | _ :: rest, path => visitsNodes rest path
termination_by structural nodes => nodes

end

/-- Adds an occurrence at the end unless one with its address is there. -/
def enter (known : List (Reached H)) (r : Reached H) : List (Reached H) :=
  if known.any (·.key == r.key) then known else known ++ [r]

theorem reached_add (t : Traversal H) (r : Reached H) :
    (t.add r).reached = enter t.reached r := by
  unfold add enter
  split <;> rfl

mutual

theorem reached_visit : ∀ (s : Sequence H) (nested : NestedId) (path : List SequenceId)
    (t : Traversal H),
    (visit s nested path t).reached = (visits s nested path).foldl enter t.reached
  | ⟨id, name, parallel, nodes, registry⟩, nested, path, t => by
      rw [visit, visits]
      split
      · rfl
      · rw [List.foldl_cons, ← reached_add]
        exact reached_visitNodes nodes (id :: path) _
termination_by structural s => s

theorem reached_visitNodes : ∀ (nodes : List (SequenceEntry H)) (path : List SequenceId)
    (t : Traversal H),
    (visitNodes nodes path t).reached = (visitsNodes nodes path).foldl enter t.reached
  | [], _, _ => rfl
  | ⟨_, _, node⟩ :: rest, path, t => by
      cases node with
      | nested s identity loops =>
          rw [visitNodes, visitsNodes, List.foldl_append, ← reached_visit s identity path t]
          exact reached_visitNodes rest path _
      | host n =>
          match n with
          | ⟨_, _, _, _, _, none⟩ => exact reached_visitNodes rest path t
          | ⟨_, _, _, _, _, some (identity, s)⟩ =>
              rw [visitNodes, visitsNodes, List.foldl_append, ← reached_visit s identity path t]
              exact reached_visitNodes rest path _
      | _ => exact reached_visitNodes rest path t
termination_by structural nodes => nodes

end

theorem visitsNodes_eq (nodes : List (SequenceEntry H)) (path : List SequenceId) :
    visitsNodes nodes path = (nodes.filterMap (·.node.nested?)).flatMap fun n =>
      visits n.2 n.1 path := by
  induction nodes with
  | nil => rfl
  | cons e rest ih =>
      obtain ⟨id, name, node⟩ := e
      cases node with
      | nested s identity loops =>
          rw [visitsNodes, ih]
          rfl
      | host n =>
          obtain ⟨_, _, _, _, _, _ | ⟨identity, s⟩⟩ := n
          · exact ih
          · rw [visitsNodes, ih]
            rfl
      | _ => exact ih

/-- The walk: a sequence first, then what it nests, node after node. -/
theorem visits_eq (s : Sequence H) (nested : NestedId) (path : List SequenceId) :
    visits s nested path =
      if path.contains s.id then []
      else ⟨s, nested⟩ :: s.nestedSequences.flatMap fun n => visits n.2 n.1 (s.id :: path) := by
  obtain ⟨id, name, parallel, nodes, registry⟩ := s
  rw [visits, visitsNodes_eq]
  rfl

theorem exists_way_of_mem_visits {s : Sequence H} {nested : NestedId} {path : List SequenceId}
    {r : Reached H} (hr : r ∈ visits s nested path) :
    ∃ way : List (Reached H), way.head? = some ⟨s, nested⟩ ∧ way.getLast? = some r ∧
      way.IsChain Reached.Nests ∧ (way.map (·.sequence.id)).Nodup ∧
      ∀ q ∈ way, q.sequence.id ∉ path := by
  induction s using Sequence.nestingInduction generalizing nested path with
  | h s ih =>
  rw [visits_eq] at hr
  split at hr
  · cases hr
  rename_i hfresh
  have hfresh : s.id ∉ path := by simpa using hfresh
  rcases List.mem_cons.mp hr with rfl | hr
  · exact ⟨[⟨s, nested⟩], rfl, rfl, .singleton _, by simp, by simpa using hfresh⟩
  obtain ⟨⟨identity, inner⟩, hmem, hr⟩ := List.mem_flatMap.mp hr
  obtain ⟨way, hhead, hlast, hchain, hnodup, havoid⟩ := ih identity inner hmem hr
  obtain ⟨way, rfl⟩ := List.head?_eq_some_iff.mp hhead
  have hnot : ∀ q ∈ ⟨inner, identity⟩ :: way, q.sequence.id ≠ s.id ∧ q.sequence.id ∉ path :=
    fun q hq => by simpa using havoid q hq
  refine ⟨⟨s, nested⟩ :: ⟨inner, identity⟩ :: way, rfl, ?_, ?_, ?_, ?_⟩
  · rw [List.getLast?_cons_cons]
    exact hlast
  · exact List.isChain_cons_cons.mpr ⟨hmem, hchain⟩
  · rw [List.map_cons, List.nodup_cons]
    refine ⟨fun hid => ?_, hnodup⟩
    obtain ⟨q, hq, heq⟩ := List.mem_map.mp hid
    exact (hnot q hq).1 heq
  · exact List.forall_mem_cons.mpr ⟨hfresh, fun q hq => (hnot q hq).2⟩

theorem mem_visits_of_way {s : Sequence H} {nested : NestedId} {path : List SequenceId}
    {r : Reached H} {way : List (Reached H)} (hhead : way.head? = some ⟨s, nested⟩)
    (hlast : way.getLast? = some r) (hchain : way.IsChain Reached.Nests)
    (hnodup : (way.map (·.sequence.id)).Nodup) (havoid : ∀ q ∈ way, q.sequence.id ∉ path) :
    r ∈ visits s nested path := by
  induction way generalizing s nested path with
  | nil => cases hhead
  | cons q way ih =>
      obtain rfl : q = ⟨s, nested⟩ := by simpa using hhead
      obtain ⟨hfresh, havoid⟩ := List.forall_mem_cons.mp havoid
      rw [visits_eq, if_neg (by simpa using hfresh)]
      cases way with
      | nil =>
          obtain rfl : (⟨s, nested⟩ : Reached H) = r := by simpa using hlast
          exact List.mem_cons_self
      | cons q way =>
          rw [List.getLast?_cons_cons] at hlast
          obtain ⟨hnests, hchain⟩ := List.isChain_cons_cons.mp hchain
          rw [List.map_cons, List.nodup_cons] at hnodup
          have hdown : r ∈ visits q.sequence q.nested (s.id :: path) := by
            refine ih rfl hlast hchain hnodup.2 fun t ht => ?_
            have hne : t.sequence.id ≠ s.id := fun heq =>
              hnodup.1 (heq ▸ List.mem_map_of_mem ht)
            simpa [hne] using havoid t ht
          exact List.mem_cons_of_mem _ (List.mem_flatMap.mpr ⟨_, hnests, hdown⟩)

/-- The walk comes by the ends of the ways down that enter no sequence on the path, and none
twice. -/
theorem mem_visits_iff {s : Sequence H} {nested : NestedId} {path : List SequenceId}
    {r : Reached H} :
    r ∈ visits s nested path ↔
      ∃ way : List (Reached H), way.head? = some ⟨s, nested⟩ ∧ way.getLast? = some r ∧
        way.IsChain Reached.Nests ∧ (way.map (·.sequence.id)).Nodup ∧
        ∀ q ∈ way, q.sequence.id ∉ path := by
  constructor
  · exact exists_way_of_mem_visits
  · rintro ⟨way, hhead, hlast, hchain, hnodup, havoid⟩
    exact mem_visits_of_way hhead hlast hchain hnodup havoid

end Traversal

/-! ### A root sequence -/

namespace Sequence

variable {root : Sequence H}

/-- The depth-first walk from a root sequence. -/
def visits (root : Sequence H) : List (Reached H) := Traversal.visits root .root []

theorem reached_traverse (root : Sequence H) :
    root.traverse.reached = firsts Reached.key root.visits := by
  rw [traverse, Traversal.reached_visit]
  exact (foldl_eq_firsts Reached.key [] _).trans (by simp [visits])

theorem mem_visits_iff {r : Reached H} :
    r ∈ root.visits ↔
      ∃ way : List (Reached H), way.head? = some ⟨root, .root⟩ ∧ way.getLast? = some r ∧
        way.IsChain Reached.Nests ∧ (way.map (·.sequence.id)).Nodup := by
  rw [visits, Traversal.mem_visits_iff]
  simp

/-- There is a way down to the occurrence. -/
def Reaches (root : Sequence H) (r : Reached H) : Prop :=
  ReflTransGen Reached.Nests ⟨root, .root⟩ r

/-- Identifiers tell the sequences apart that can be reached. -/
def DistinctIds (root : Sequence H) : Prop :=
  ∀ r q, root.Reaches r → root.Reaches q → r.sequence.id = q.sequence.id → r.sequence = q.sequence

theorem reaches_of_mem_visits {r : Reached H} (h : r ∈ root.visits) : root.Reaches r := by
  obtain ⟨way, hhead, hlast, hchain, -⟩ := mem_visits_iff.mp h
  obtain ⟨way, rfl⟩ := List.head?_eq_some_iff.mp hhead
  rw [List.getLast?_eq_some_getLast (List.cons_ne_nil _ _)] at hlast
  have hreaches := List.relationReflTransGen_of_exists_isChain_cons way hchain rfl
  rwa [Option.some.inj hlast] at hreaches

theorem below_of_transGen {r q : Reached H} (h : TransGen Reached.Nests r q) :
    r.sequence.Below q.sequence := by
  induction h with
  | single hnests => exact below_of_mem hnests
  | tail _ hnests ih => exact Nat.lt_trans (below_of_mem hnests) ih

/-- On a way down the sequences get smaller, so that none is entered twice. -/
theorem Reaches.mem_visits {r : Reached H} (hids : root.DistinctIds) (h : root.Reaches r) :
    r ∈ root.visits := by
  obtain ⟨way, hchain, hlast⟩ := List.exists_isChain_cons_of_relationReflTransGen h
  refine mem_visits_iff.mpr ⟨⟨root, .root⟩ :: way, rfl, ?_, hchain, ?_⟩
  · rw [List.getLast?_eq_some_getLast (List.cons_ne_nil _ _), hlast]
  · have hways : (⟨root, .root⟩ :: way).Pairwise (TransGen Reached.Nests) :=
      (hchain.imp fun _ _ => TransGen.single).pairwise
    have hreached : ∀ q ∈ (⟨root, .root⟩ : Reached H) :: way, root.Reaches q :=
      List.forall_mem_cons.mpr
        ⟨.refl, fun q hq => ((List.pairwise_cons.mp hways).1 q hq).to_reflTransGen⟩
    rw [List.Nodup, List.pairwise_map]
    refine hways.imp_of_mem fun {a b} ha hb hab heq => ?_
    exact (below_of_transGen hab).ne (hids b a (hreached b hb) (hreached a ha) heq.symm)

end Sequence

end Sequencer
