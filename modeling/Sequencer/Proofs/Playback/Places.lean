import Sequencer.Proofs.Playback.Scope

/-!
# Sequencer.Proofs.Playback.Places

Where things happen in a sequence: the range of nodes that a fork goes through, what the primitives
of the scheduler do to the cursor, and the range that a block gets from its node.
-/

namespace Sequencer

variable {H : Host}

/-! ### Ranges of nodes -/

/-- The nodes from `first` up to `stop`, with their positions. -/
def Sequence.span (s : Sequence H) (first stop : Nat) : List (SequenceEntry H × Nat) :=
  (s.nodes.zipIdx.drop first).take (stop - first)

theorem Sequence.exists_entry {s : Sequence H} {p : Nat} (h : p < s.length) :
    ∃ entry, s.nodes[p]? = some entry :=
  ⟨_, List.getElem?_eq_getElem h⟩

theorem Sequence.span_of_le (s : Sequence H) {first stop : Nat} (h : stop ≤ first) :
    s.span first stop = [] := by
  simp [span, Nat.sub_eq_zero_of_le h]

theorem Sequence.span_of_length_le (s : Sequence H) {first : Nat} (stop : Nat)
    (h : s.length ≤ first) : s.span first stop = [] := by
  rw [Sequence.span, List.drop_eq_nil_of_le (by simpa [Sequence.length] using h), List.take_nil]

theorem Sequence.span_cons {s : Sequence H} {first stop : Nat} (h : first < stop)
    {entry : SequenceEntry H} (hentry : s.nodes[first]? = some entry) :
    s.span first stop = (entry, first) :: s.span (first + 1) stop := by
  obtain ⟨hlt, rfl⟩ := List.getElem?_eq_some_iff.mp hentry
  have hdrop : s.nodes.zipIdx.drop first
      = (s.nodes[first], first) :: s.nodes.zipIdx.drop (first + 1) := by
    rw [List.drop_eq_getElem_cons (by simpa using hlt)]
    simp
  have hsub : stop - first = (stop - (first + 1)) + 1 := by omega
  rw [span, span, hdrop, hsub, List.take_succ_cons]

/-- The node at a position, and the nodes behind it. -/
theorem Sequence.of_drop_cons {s : Sequence H} {p : Nat} {entry : SequenceEntry H}
    {rest : List (SequenceEntry H)} (h : s.nodes.drop p = entry :: rest) :
    s.nodes[p]? = some entry ∧ s.nodes.drop (p + 1) = rest := by
  constructor
  · rw [← List.head?_drop, h]
    rfl
  · rw [← List.drop_drop, h]
    rfl

/-! ### The cursor -/

@[simp] theorem Context.record_cursor (cx : Context H) (e : Event H) :
    (cx.record e).cursor = cx.cursor := rfl

@[simp] theorem Context.release_cursor (cx : Context H) (task : Task H) :
    (cx.release task).cursor = cx.cursor := rfl

@[simp] theorem Context.requestStop_cursor (cx : Context H) :
    cx.requestStop.cursor = cx.cursor := by
  unfold requestStop
  split <;> rfl

@[simp] theorem Context.absorb_cursor (cx : Context H) (r : Reaction H.Note) :
    (cx.absorb r).cursor = r.surroundings.cursor := by
  unfold absorb
  dsimp only
  split
  · exact requestStop_cursor ⟨r.surroundings.cursor, _⟩
  · rfl

/-- What the invocation of a block's node comes to: a block, if there is a node for it. -/
theorem Context.invoke_parallelNext {s : Sequence H} {p : Nat} {cx : Context H}
    {entry : SequenceEntry H} {count : Nat}
    (hnode : entry.node = .parallelNext count) (hcursor : cx.cursor.index = p) (nested : NestedId)
    (parallel : Bool) :
    cx.invoke s nested p entry parallel =
      let called := cx.record (.invoked (cx.invocation s nested p entry parallel))
      let stop := min (p + 1 + count) s.length
      let launched := called.launch (.block ⟨s, nested, p + 1, stop, none⟩)
      if p + 1 < stop then (some launched.1, launched.2) else (none, called) := by
  have hposition : cx.cursor.position? = some p := Cursor.position?_eq_some.mpr hcursor
  rw [invoke_eq, hnode]
  by_cases hlt : p + 1 < min (p + 1 + count) s.length
  · simp only [Node.start, record_cursor, hposition, if_pos hlt]
  · simp only [Node.start, record_cursor, hposition, if_neg hlt]

/-- The same as two cases: the block that the node leaves, if it leaves one, is that of nodes behind
its own. -/
theorem Context.invoke_block_cases {s : Sequence H} {nested : NestedId} {p count : Nat}
    {cx cx' : Context H} {entry : SequenceEntry H} {parallel : Bool} {left : Option (Task H)}
    (hnode : entry.node = .parallelNext count) (hcursor : cx.cursor.index = p)
    (h : cx.invoke s nested p entry parallel = (left, cx')) :
    (left = none ∧ cx'.cursor = cx.cursor) ∨
      ∃ stop, p + 1 < stop ∧ stop ≤ s.length ∧
        left = some ⟨cx.playback.nextTicket, false, .block ⟨s, nested, p + 1, stop, none⟩⟩ := by
  rw [invoke_parallelNext hnode hcursor] at h
  dsimp only at h
  split at h
  · rename_i hlt
    cases h
    exact .inr ⟨_, hlt, Nat.min_le_right _ _, rfl⟩
  · cases h
    exact .inl ⟨rfl, rfl⟩

end Sequencer
