import Sequencer.Proofs.Playback.Scope
import Sequencer.Rehearsal.StandIn

/-!
# Sequencer.Proofs.Playback.Steering

Where a cursor stands after any moves, and whether a sequence goes on there.

A move names an index: a position, or the index so far ahead or so far back. The cursor gets there,
or to the end of the range of indices if the index lies beyond it. But a distance is cut to the
highest index first, while the range is twice as wide as that: a longer one falls short, unless the
end of the range is nearer.

* `Cursor.Move`: one move, with `Move.target` for the index that it names;
* `Move.Faithful`: the moves that lead to their target, up to the end of the range
  (`apply_index_iff`);
* `Move.Strays`: the moves that lead onto a node of a sequence though they name no position of it;
* `steered_iff`: both, after any moves. `strayed` is such a move.
-/

namespace Sequencer

namespace Cursor

/-! ### Moves -/

/-- One move of a cursor. -/
inductive Move
  /-- To an index. -/
  | set (index : Nat)
  /-- So far forward. -/
  | advance (count : Nat)
  /-- So far back. -/
  | rewind (count : Nat)

/-- A cursor within the range of indices. -/
def InRange (c : Cursor) : Prop := lowest ≤ c.index ∧ c.index ≤ highest

namespace Move

/-- Moves a cursor. -/
def apply (c : Cursor) : Move → Cursor
  | set index => c.set index
  | advance count => c.advance count
  | rewind count => c.rewind count

/-- The index that a move names, seen from an index. -/
def target (n : Int) : Move → Int
  | set index => index
  | advance count => n + count
  | rewind count => n - count

/-- Is the distance one that is not cut, or does it lead to the end of the range all the same? -/
def Faithful (c : Cursor) : Move → Prop
  | set _ => True
  | advance count => count ≤ highest ∨ 0 ≤ c.index
  | rewind count => count ≤ highest ∨ c.index < 0

/-- Does the move, its distance cut, lead to one of so many positions? -/
def Strays (c : Cursor) (length : Nat) : Move → Prop
  | set _ => False
  | advance count => highest < count ∧ -highest ≤ c.index ∧ c.index + highest < length
  | rewind count => highest < count ∧ c.index = highest ∧ 0 < length

instance (c : Cursor) (m : Move) : Decidable (m.Faithful c) :=
  match m with
  | set _ => inferInstanceAs (Decidable True)
  | advance _ => inferInstanceAs (Decidable (_ ∨ _))
  | rewind _ => inferInstanceAs (Decidable (_ ∨ _))

instance (c : Cursor) (length : Nat) (m : Move) : Decidable (m.Strays c length) :=
  match m with
  | set _ => inferInstanceAs (Decidable False)
  | advance _ => inferInstanceAs (Decidable (_ ∧ _))
  | rewind _ => inferInstanceAs (Decidable (_ ∧ _))

/-- A move leads into the range, wherever it starts. -/
theorem inRange_apply (c : Cursor) (m : Move) : (m.apply c).InRange := by
  cases m with
  | set index => simp only [apply, Cursor.set, distance, InRange, lowest, highest]; omega
  | advance count => simp only [apply, Cursor.advance, clamp, InRange, lowest, highest]; omega
  | rewind count => simp only [apply, Cursor.rewind, clamp, InRange, lowest, highest]; omega

variable {c : Cursor}

/-- The faithful moves are those that lead to their target, or to the end of the range that it lies
beyond. -/
theorem apply_index_iff (h : c.InRange) (m : Move) :
    (m.apply c).index = clamp (m.target c.index) ↔ m.Faithful c := by
  obtain ⟨hlow, hhigh⟩ := h
  cases m with
  | set index =>
      simp only [apply, target, Faithful, Cursor.set, distance, clamp, lowest, highest, iff_true]
      omega
  | advance count =>
      simp only [apply, target, Faithful, Cursor.advance, distance, clamp, lowest, highest] at *
      omega
  | rewind count =>
      simp only [apply, target, Faithful, Cursor.rewind, distance, clamp, lowest, highest] at *
      omega

/-- From a target outside of the positions, a move leads to one of them exactly if it strays. -/
theorem lands_iff (h : c.InRange) (m : Move) {length : Nat} (hlength : (length : Int) ≤ highest)
    (hout : m.target c.index < 0 ∨ length ≤ m.target c.index) :
    (0 ≤ (m.apply c).index ∧ (m.apply c).index < length) ↔ m.Strays c length := by
  obtain ⟨hlow, hhigh⟩ := h
  cases m with
  | set index =>
      simp only [apply, target, Strays, Cursor.set, distance, highest, iff_false] at *
      omega
  | advance count =>
      simp only [apply, target, Strays, Cursor.advance, distance, clamp, lowest, highest] at *
      omega
  | rewind count =>
      simp only [apply, target, Strays, Cursor.rewind, distance, clamp, lowest, highest] at *
      omega

end Move

/-- The cursor after moves, from the first to the last. -/
def steer (c : Cursor) (moves : List Move) : Cursor := moves.foldl Move.apply c

theorem inRange_steer {c : Cursor} (h : c.InRange) (moves : List Move) :
    (c.steer moves).InRange := by
  induction moves generalizing c with
  | nil => exact h
  | cons m rest ih => exact ih (m.inRange_apply c)

end Cursor

/-! ### Going on -/

/-- A sequence goes on with a node exactly if the cursor stands at one of its positions. -/
theorem Context.isSome_nextNode?_iff {H : Host} {cx : Context H} {s : Sequence H} :
    (cx.nextNode? s).isSome ↔ 0 ≤ cx.cursor.index ∧ cx.cursor.index < s.length := by
  rw [Option.isSome_iff_exists]
  constructor
  · rintro ⟨⟨position, entry⟩, hnext⟩
    obtain ⟨hindex, hentry⟩ := nextNode?_eq_some.mp hnext
    have hlt : position < s.length := (List.getElem?_eq_some_iff.mp hentry).1
    omega
  · rintro ⟨hnonneg, hlt⟩
    obtain ⟨position, hposition⟩ := Int.eq_ofNat_of_zero_le hnonneg
    have hlt : position < s.nodes.length := by rw [Sequence.length] at hlt; omega
    exact ⟨(position, s.nodes[position]),
      nextNode?_eq_some.mpr ⟨hposition, List.getElem?_eq_getElem hlt⟩⟩

/-- **Moves of a cursor.** After any moves from the first node a cursor is within the range of
indices. One more move leads to the index that it names, or to the end of the range that it lies
beyond, exactly if the move is faithful: a distance is at most the highest index, or it leads
forward from an index that is not negative or back from one that is. If the move names no position
of a sequence, the sequence does not go on there, unless the move strays: it is longer than the
highest index, and it leads back from that index or forward from an index so far below the first
node that the highest index forward there is a node. -/
theorem steered_iff (moves : List Cursor.Move) (m : Cursor.Move) :
    let c := Cursor.start.steer moves
    c.InRange ∧ ((m.apply c).index = Cursor.clamp (m.target c.index) ↔ m.Faithful c) ∧
    ∀ (H : Host) (s : Sequence H) (playback : Playback H), (s.length : Int) ≤ Cursor.highest →
      m.target c.index < 0 ∨ s.length ≤ m.target c.index →
      ((Context.nextNode? ⟨m.apply c, playback⟩ s).isSome ↔ m.Strays c s.length) := by
  intro c
  have hstart : Cursor.start.InRange := ⟨by decide, by decide⟩
  have hrange : c.InRange := Cursor.inRange_steer hstart moves
  refine ⟨hrange, m.apply_index_iff hrange, fun H s playback hlength hout => ?_⟩
  rw [Context.isSome_nextNode?_iff]
  exact m.lands_iff hrange hlength hout

/-- A probe that sets the cursor as far as it goes and takes it back by as much as 64 bits hold, and
a mark behind it. -/
def detour : Sequence Rehearsal.stage where
  id := ⟨.ofNat 1⟩
  name := "detour"
  nodes :=
    [.new ⟨.ofNat 1⟩ (.host (Rehearsal.StandIn.probeNode "probe" []
        [.moveTo 18446744073709551615, .rewind 18446744073709551615] none)),
      .new ⟨.ofNat 2⟩ (.host (Rehearsal.StandIn.markNode "mark"))]

/-- Forward again from where as much back has led: the move names an index behind all nodes, and it
leads onto the first one. -/
theorem steered_iff_detour :
    let c := Cursor.start.steer [.rewind 18446744073709551615]
    let m := Cursor.Move.advance 18446744073709551615
    (detour.length : Int) ≤ Cursor.highest ∧ detour.length ≤ m.target c.index ∧
    (m.apply c).index ≠ Cursor.clamp (m.target c.index) ∧
    (Context.nextNode? ⟨m.apply c, {}⟩ detour).isSome := by
  obtain ⟨-, hiff, hnext⟩ :=
    steered_iff [.rewind 18446744073709551615] (.advance 18446744073709551615)
  exact ⟨by decide, by decide, mt hiff.mp (by decide),
    (hnext Rehearsal.stage detour {} (by decide) (.inr (by decide))).mpr (by decide)⟩

/-- **Strayed.** From the highest index the probe's move back names an index below all nodes, and
one within the range; it leads onto the first node, and the pass goes on behind that with the
mark. -/
theorem strayed :
    let c := Cursor.start.set 18446744073709551615
    c.index - 18446744073709551615 = Cursor.lowest ∧
    (c.rewind 18446744073709551615).index ≠ Cursor.clamp (c.index - 18446744073709551615) ∧
    (c.rewind 18446744073709551615).position? = some 0 ∧
    (((Run.new detour .root).step (Task.poll 3) 3 {}).map fun stepped =>
        (stepped.2.2.history.filterMap Event.invocation?).reverse.map (·.position))
      = some [0, 1] := by
  refine ⟨by decide, by decide, by decide, ?_⟩
  decide

end Sequencer
