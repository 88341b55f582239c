import Mathlib.Logic.Relation
import Sequencer.Proofs.Pass.Arrangement

/-!
# Sequencer.Proofs.Pass.Strides

Where the forks of a parallel pass go on, for sequences of blocks and of nodes that move the cursor
ahead by fixed distances. A suspended block leaves the cursor where its fork has left it, so that
the enclosing fork goes on there; a block that is done at once goes back to its own last node. What
is started can therefore depend on which of the nodes suspend.

* `Stride.OnPath`: the positions that are started if every block leaves the cursor where it is;
* `Stride.Enclosed`: the path leaves no block at another place than its end;
* `Stride.Trace`: what a fork starts, and where it goes on, in terms of what suspends.

Traces follow the path if it is enclosed, and also if everything suspends (`Trace.follows`,
`path_reach_of_idle`). If nothing suspends, a trace that does not leave the path shows that the path
is enclosed (`Trace.path_reach`).
-/

namespace Sequencer

/-- What matters of a node for where a fork goes on that starts it. -/
inductive Stride
  /-- A parallel block over the next nodes. -/
  | block (count : Nat)
  /-- A node that moves the cursor ahead when it is invoked. -/
  | ahead (distance : Nat)
  deriving DecidableEq

namespace Stride

open Relation

/-- The shape of a node of this stride. -/
def shape : Stride → Shape
  | block count => .block count
  | ahead _ => .steady

/-- The position behind the nodes of the block at `i`. -/
def reach (strides : List Stride) (i : Nat) : Nat := Shape.reach (strides.map shape) i

/-- No block reaches past the end of a block around it. -/
def Laminar (strides : List Stride) : Prop := Shape.Laminar (strides.map shape)

/-- Where a fork goes on behind the node at a position, as long as no block is done. -/
def behind (strides : List Stride) (p : Nat) : Nat :=
  match strides[p]? with
  | some (.ahead distance) => min (p + 1 + distance) strides.length
  | _ => p + 1

/-- The positions that the fork over all nodes comes by, as long as no block is done. -/
def OnPath (strides : List Stride) : Nat → Prop :=
  ReflTransGen (fun p q => p < strides.length ∧ q = behind strides p) 0

/-- No node on the path leads out of a block on the path. -/
def Enclosed (strides : List Stride) : Prop :=
  ∀ i j, OnPath strides i → OnPath strides j → i < j → j < reach strides i →
    behind strides j ≤ reach strides i

instance (strides : List Stride) : Decidable (Laminar strides) :=
  inferInstanceAs (Decidable (Shape.Laminar _))

variable {strides : List Stride} {p q : Nat}

/-! ### The path -/

theorem reach_of_block {count : Nat} (h : strides[p]? = some (.block count)) :
    reach strides p = min (p + 1 + count) strides.length := by
  have hshape : (strides.map shape)[p]? = some (.block count) := by simp [h, shape]
  rw [reach, Shape.reach_of_block hshape, List.length_map]

theorem exists_block (h : p + 1 < reach strides p) :
    ∃ count, strides[p]? = some (.block count) := by
  obtain ⟨count, hshape⟩ := Shape.exists_block h
  obtain ⟨stride, hstride, heq⟩ := Option.map_eq_some_iff.mp (List.getElem?_map ▸ hshape)
  cases stride with
  | block count => exact ⟨count, hstride⟩
  | ahead distance => cases heq

theorem lt_reach (strides : List Stride) (p : Nat) : p < reach strides p :=
  Shape.lt_reach _ p

theorem reach_le (h : p < strides.length) : reach strides p ≤ strides.length := by
  have hle := Shape.reach_le (show p < (strides.map shape).length by simpa using h)
  rwa [List.length_map] at hle

theorem behind_of_block {count : Nat} (h : strides[p]? = some (.block count)) :
    behind strides p = p + 1 := by
  rw [behind, h]

theorem behind_of_ahead {distance : Nat} (h : strides[p]? = some (.ahead distance)) :
    behind strides p = min (p + 1 + distance) strides.length := by
  rw [behind, h]

theorem lt_behind (h : p < strides.length) : p < behind strides p := by
  unfold behind
  split <;> omega

theorem behind_le (h : p < strides.length) : behind strides p ≤ strides.length := by
  unfold behind
  split <;> omega

theorem OnPath.next (h : OnPath strides p) (hp : p < strides.length) :
    OnPath strides (behind strides p) :=
  h.tail ⟨hp, rfl⟩

/-- What a position leads to is not in front of it. -/
theorem le_of_leads
    (h : ReflTransGen (fun p q => p < strides.length ∧ q = behind strides p) p q) : p ≤ q := by
  induction h with
  | refl => exact Nat.le_refl p
  | tail _ hstep ih => exact Nat.le_trans ih (hstep.2 ▸ Nat.le_of_lt (lt_behind hstep.1))

/-- The path comes by no position between one of its own and where it goes on behind that. -/
theorem OnPath.behind_le (hp : OnPath strides p) (hq : OnPath strides q) (hlt : p < q) :
    behind strides p ≤ q := by
  have hleads := ReflTransGen.total_of_right_unique
    (fun _ _ _ hb hc => hb.2.trans hc.2.symm) hp hq
  rcases hleads with hleads | hleads
  · rcases hleads.cases_head with heq | ⟨next, hstep, hrest⟩
    · omega
    · exact hstep.2 ▸ le_of_leads hrest
  · exact absurd (le_of_leads hleads) (Nat.not_le.mpr hlt)

/-- The path comes by each position that no node on it leads across. -/
theorem OnPath.of_not_crossed (hp : OnPath strides p) (hpq : p ≤ q) (hq : q ≤ strides.length)
    (h : ∀ j, OnPath strides j → p ≤ j → j < q → behind strides j ≤ q) : OnPath strides q := by
  induction hn : q - p using Nat.strongRecOn generalizing p with
  | _ n ih =>
      rcases Nat.lt_or_eq_of_le hpq with hlt | rfl
      · have hbehind := lt_behind (show p < strides.length by omega)
        exact ih _ (by omega) (hp.next (by omega)) (h p hp (Nat.le_refl p) hlt)
          (fun j hj hle => h j hj (by omega)) rfl
      · exact hp

/-- The path comes by the end of the list. -/
theorem path_length (strides : List Stride) : OnPath strides strides.length :=
  OnPath.of_not_crossed .refl (Nat.zero_le _) (Nat.le_refl _) fun _ _ _ => Stride.behind_le

/-- An enclosed path is one that comes by the end of each block on it. -/
theorem enclosed_iff : Enclosed strides ↔
    ∀ i count, OnPath strides i → strides[i]? = some (.block count) →
      OnPath strides (reach strides i) := by
  constructor
  · intro h i count hi hblock
    have hlt : i < strides.length := (List.getElem?_eq_some_iff.mp hblock).1
    have hnext := hi.next hlt
    rw [behind_of_block hblock] at hnext
    exact hnext.of_not_crossed (lt_reach _ i) (reach_le hlt) fun j hj hle => h i j hi hj (by omega)
  · intro h i j hi hj hij hlt
    obtain ⟨count, hblock⟩ := exists_block (show i + 1 < reach strides i by omega)
    exact hj.behind_le (h i count hi hblock) hlt

/-! ### Traces -/

/-- The fork at `next` over the nodes in front of `stop` starts these positions, tells whether any
of them is pending, and goes on at `last` behind the range. Which of the nodes that are no blocks
suspend is open within `mode`. -/
inductive Trace (strides : List Stride) (mode : Bool → Prop) :
    (stop next : Nat) → List Nat → Bool → (last : Nat) → Prop
  /-- The range is used up. -/
  | ended {stop next : Nat} : stop ≤ next → Trace strides mode stop next [] false next
  /-- A node that is no block. -/
  | ahead {stop next distance last : Nat} {suspends pending : Bool} {positions : List Nat} :
      next < stop → strides[next]? = some (.ahead distance) → mode suspends →
      Trace strides mode stop (behind strides next) positions pending last →
      Trace strides mode stop next (next :: positions) (suspends || pending) last
  /-- A block. If it is done, the fork goes on behind its last node. -/
  | block {stop next count inner last : Nat} {pending pending' : Bool}
      {positions positions' : List Nat} :
      next < stop → strides[next]? = some (.block count) →
      Trace strides mode (reach strides next) (next + 1) positions pending inner →
      Trace strides mode stop (if pending then inner else reach strides next) positions' pending'
        last →
      Trace strides mode stop next (next :: (positions ++ positions')) (pending || pending') last

namespace Trace

variable {mode : Bool → Prop} {stop next last : Nat} {positions : List Nat} {pending : Bool}

theorem stop_le (h : Trace strides mode stop next positions pending last) : stop ≤ last := by
  induction h with
  | ended hle => exact hle
  | ahead _ _ _ _ ih => exact ih
  | block _ _ _ _ _ ih => exact ih

theorem lt_length (h : Trace strides mode stop next positions pending last) :
    ∀ p ∈ positions, p < strides.length := by
  induction h with
  | ended => simp
  | ahead _ hstride _ _ ih =>
      exact List.forall_mem_cons.mpr ⟨(List.getElem?_eq_some_iff.mp hstride).1, ih⟩
  | block _ hstride _ _ ih ih' =>
      exact List.forall_mem_cons.mpr ⟨(List.getElem?_eq_some_iff.mp hstride).1,
        List.forall_mem_append.mpr ⟨ih, ih'⟩⟩

/-- The first node of the range is started. -/
theorem mem_of_lt (h : Trace strides mode stop next positions pending last) (hlt : next < stop) :
    next ∈ positions := by
  cases h with
  | ended hle => omega
  | ahead | block => exact List.mem_cons_self

/-- A trace follows the path if the path comes by the ends of the blocks that are done. -/
theorem follows
    (hends : ∀ i count positions inner, OnPath strides i → strides[i]? = some (.block count) →
      Trace strides mode (reach strides i) (i + 1) positions false inner →
      OnPath strides (reach strides i))
    (h : Trace strides mode stop next positions pending last) (hnext : OnPath strides next) :
    OnPath strides last ∧ (∀ p ∈ positions, OnPath strides p) ∧
      ∀ p, OnPath strides p → next ≤ p → p < last → p ∈ positions := by
  induction h with
  | ended => exact ⟨hnext, by simp, fun p _ hle hlt => by omega⟩
  | @ahead _ next _ _ _ _ _ _ hstride _ _ ih =>
      have hlt : next < strides.length := (List.getElem?_eq_some_iff.mp hstride).1
      obtain ⟨hlast, hon, hall⟩ := ih (hnext.next hlt)
      refine ⟨hlast, List.forall_mem_cons.mpr ⟨hnext, hon⟩, fun p hp hle hp' => ?_⟩
      rcases Nat.lt_or_eq_of_le hle with hbehind | rfl
      · exact List.mem_cons_of_mem _ (hall p hp (hnext.behind_le hp hbehind) hp')
      · exact List.mem_cons_self
  | @block _ next count inner _ pending _ _ _ _ hstride hinner _ ih ih' =>
      have hlt : next < strides.length := (List.getElem?_eq_some_iff.mp hstride).1
      have hfirst := hnext.next hlt
      rw [behind_of_block hstride] at hfirst
      obtain ⟨hleft, hon, hall⟩ := ih hfirst
      have hstop := hinner.stop_le
      have hgoes : OnPath strides (if pending then inner else reach strides next) := by
        cases pending with
        | true => exact hleft
        | false => exact hends next count _ _ hnext hstride hinner
      obtain ⟨hlast, hon', hall'⟩ := ih' hgoes
      refine ⟨hlast, List.forall_mem_cons.mpr ⟨hnext, List.forall_mem_append.mpr ⟨hon, hon'⟩⟩,
        fun p hp hle hp' => ?_⟩
      rcases Nat.lt_or_eq_of_le hle with hlater | rfl
      · refine List.mem_cons_of_mem _ (List.mem_append.mpr ?_)
        by_cases hin : p < inner
        · exact .inl (hall p hp hlater hin)
        · refine .inr (hall' p hp ?_ hp')
          split <;> omega
      · exact List.mem_cons_self

/-- In an enclosed arrangement the fork over all nodes starts exactly the path. -/
theorem mem_iff (h : Trace strides mode strides.length 0 positions pending last)
    (hends : ∀ i count positions inner, OnPath strides i → strides[i]? = some (.block count) →
      Trace strides mode (reach strides i) (i + 1) positions false inner →
      OnPath strides (reach strides i)) (p : Nat) :
    p ∈ positions ↔ OnPath strides p ∧ p < strides.length := by
  obtain ⟨-, hon, hall⟩ := h.follows hends .refl
  have hstop := h.stop_le
  exact ⟨fun hp => ⟨hon p hp, h.lt_length p hp⟩,
    fun ⟨hp, hlt⟩ => hall p hp (Nat.zero_le p) (by omega)⟩

/-- If all nodes suspend but blocks, what is not pending is blocks without other nodes, and the path
comes by each position there. -/
theorem path_of_idle (hmode : ∀ suspends, mode suspends → suspends = true)
    (h : Trace strides mode stop next positions pending last) (hpending : pending = false)
    (hnext : OnPath strides next) : ∀ p, next ≤ p → p ≤ stop → OnPath strides p := by
  induction h with
  | ended hle =>
      intro p hp hp'
      obtain rfl : p = _ := Nat.le_antisymm (by omega) hp
      exact hnext
  | ahead _ _ hsuspends _ _ =>
      rw [hmode _ hsuspends] at hpending
      cases hpending
  | @block stop next _ inner _ pending pending' _ _ hlt hstride hinner _ ih ih' =>
      obtain ⟨rfl, rfl⟩ : pending = false ∧ pending' = false := Bool.or_eq_false_iff.mp hpending
      have hfirst := hnext.next (List.getElem?_eq_some_iff.mp hstride).1
      rw [behind_of_block hstride] at hfirst
      have hin := ih rfl hfirst
      have hend := hin _ (lt_reach strides next) (Nat.le_refl _)
      intro p hp hp'
      by_cases heq : p = next
      · exact heq ▸ hnext
      · by_cases hle : p ≤ reach strides next
        · exact hin p (by omega) hle
        · exact ih' rfl (by simpa using hend) p (by simp; omega) hp'

theorem not_pending (hmode : ∀ suspends, mode suspends → suspends = false)
    (h : Trace strides mode stop next positions pending last) : pending = false := by
  induction h with
  | ended => rfl
  | ahead _ _ hsuspends _ ih => rw [hmode _ hsuspends, ih, Bool.or_false]
  | block _ _ _ _ ih ih' => rw [ih, ih', Bool.or_false]

/-- If nothing suspends, each block goes back to its last node. So a trace that does not leave the
path shows that the path comes by the ends of the blocks. -/
theorem path_reach (hlaminar : Laminar strides)
    (hmode : ∀ suspends, mode suspends → suspends = false)
    (h : Trace strides mode stop next positions pending last)
    (hon : ∀ p ∈ positions, OnPath strides p) (hnext : OnPath strides next)
    (hin : ∀ i, next ≤ i → i < stop → reach strides i ≤ stop) {i count : Nat}
    (hi : OnPath strides i) (hle : next ≤ i) (hlt : i < stop)
    (hblock : strides[i]? = some (.block count)) (hreach : reach strides i < stop) :
    OnPath strides (reach strides i) := by
  induction h with
  | ended => omega
  | @ahead _ next _ _ _ _ _ _ hstride _ _ ih =>
      have hlen : next < strides.length := (List.getElem?_eq_some_iff.mp hstride).1
      have hbehind := lt_behind hlen
      have hne : next ≠ i := by
        rintro rfl
        rw [hstride] at hblock
        cases hblock
      exact ih (List.forall_mem_cons.mp hon).2 (hnext.next hlen) (fun k hk => hin k (by omega))
        (hnext.behind_le hi (by omega)) hlt hreach
  | @block stop next _ _ _ pending _ _ _ hstop hstride hinner hrest ih ih' =>
      have hlen : next < strides.length := (List.getElem?_eq_some_iff.mp hstride).1
      have hbehind := lt_reach strides next
      obtain rfl := hinner.not_pending hmode
      have hfirst := hnext.next hlen
      rw [behind_of_block hstride] at hfirst
      obtain ⟨-, hpositions⟩ := List.forall_mem_cons.mp hon
      obtain ⟨honInner, honRest⟩ := List.forall_mem_append.mp hpositions
      -- The fork goes on at the end of the block, so this is on the path if anything is left.
      have hend : reach strides next < stop → OnPath strides (reach strides next) :=
        fun hleft => honRest _ (hrest.mem_of_lt (by simpa using hleft))
      have hwithin : ∀ k, next + 1 ≤ k → k < reach strides next →
          reach strides k ≤ reach strides next :=
        fun k hk hk' => hlaminar next (by simpa using hlen) k hk' (by omega)
      by_cases heq : i = next
      · exact heq ▸ hend (heq ▸ hreach)
      · by_cases hinside : i < reach strides next
        · rcases Nat.lt_or_eq_of_le (hwithin i (by omega) hinside) with hshort | hsame
          · exact ih honInner hfirst hwithin (by omega) hinside hshort
          · exact hsame ▸ hend (hsame ▸ hreach)
        · exact ih' honRest (hend (by omega)) (fun k hk => hin k (by simp at hk; omega))
            (by simp; omega) hlt hreach

end Trace

/-- An arrangement is enclosed if the trace without suspension does not leave the path. -/
theorem enclosed_of_trace (hlaminar : Laminar strides) {mode : Bool → Prop} {positions : List Nat}
    {pending : Bool} {last : Nat} (hmode : ∀ suspends, mode suspends → suspends = false)
    (h : Trace strides mode strides.length 0 positions pending last)
    (hon : ∀ p ∈ positions, OnPath strides p) : Enclosed strides := by
  refine enclosed_iff.mpr fun i count hi hblock => ?_
  have hlen : i < strides.length := (List.getElem?_eq_some_iff.mp hblock).1
  rcases Nat.lt_or_eq_of_le (reach_le hlen) with hlt | heq
  · exact h.path_reach hlaminar hmode hon .refl (fun _ _ hk => reach_le hk) hi (Nat.zero_le i) hlen
      hblock hlt
  · exact heq ▸ path_length strides

end Stride

end Sequencer
