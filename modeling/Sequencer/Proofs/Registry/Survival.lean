import Sequencer.Proofs.Registry.Insertion

/-!
# Sequencer.Proofs.Registry.Survival

What becomes of a node while the nodes around it are edited.

* `Edit.Gentle`: the edits that cannot take an index from a field: none that changes a node, and no
  insertion of a node that brings indices along;
* `Edit.follow`: where a node goes in an edit, if it is not removed;
* `Edit.follow_keeps`: there it is as it was, indices included, but for its display name.
-/

namespace Sequencer

variable {H : Host}

namespace Edit

/-- An edit that leaves the indices alone that fields have: it changes no node, and inserts none
whose fields carry indices. -/
def Gentle : Edit H → Prop
  | insert _ _ node => ∀ d ∈ node.declarations, d.field.index = none
  | edit .. => False
  | _ => True

/-- The place of a node after the node at a position was taken out. -/
def closeUp (position i : Nat) : Nat := if position < i then i - 1 else i

/-- The place of a node after an edit, given its place before, or nothing if the edit removes it. An
edit that is refused moves nothing. -/
def follow (s : Sequence H) (i : Nat) : Edit H → Option Nat
  | insert position _ _ => some (if position ≤ s.length then Sequence.makeRoom position i else i)
  | erase id =>
    match s.position? id with
    | none => some i
    | some position => if position = i then none else some (closeUp position i)
  | move id target =>
    match s.position? id with
    | none => some i
    | some position =>
      if s.length ≤ target then some i
      else if position = i then some target
      else some (Sequence.makeRoom target (closeUp position i))
  | _ => some i

end Edit

namespace Sequence

/-- What is left after a removal closed up. -/
theorem exists_of_getElem?_eraseIdx {α : Type} {l : List α} {position k : Nat} {a : α}
    (h : (l.eraseIdx position)[k]? = some a) :
    ∃ k', l[k']? = some a ∧ k' ≠ position ∧ Edit.closeUp position k' = k := by
  rw [List.getElem?_eraseIdx] at h
  by_cases hlt : k < position
  · rw [if_pos hlt] at h
    exact ⟨k, h, Nat.ne_of_lt hlt, if_neg (Nat.lt_asymm hlt)⟩
  · rw [if_neg hlt] at h
    exact ⟨k + 1, h, by omega, if_pos (by omega)⟩

/-- A node that is not taken out closes up. -/
theorem getElem?_closeUp {α : Type} {l : List α} {position i : Nat} (h : position ≠ i) :
    (l.eraseIdx position)[Edit.closeUp position i]? = l[i]? := by
  rw [List.getElem?_eraseIdx, Edit.closeUp]
  split
  · rename_i hlt
    rw [if_neg (by omega), Nat.sub_add_cancel (by omega)]
  · rename_i hle
    rw [if_pos (by omega)]

variable {s : Sequence H} {i : Nat} {entry : SequenceEntry H}

/-- A node of a sequence in step stays as it is, in another node list, behind other nodes of the
sequence. -/
theorem InSync.withNodes_stays (h : s.InSync) (hi : s.nodes[i]? = some entry)
    {nodes : List (SequenceEntry H)} {j : Nat} (hj : nodes[j]? = some entry)
    (hfront : ∀ e ∈ nodes.take j, ∃ k, k ≠ i ∧ s.nodes[k]? = some e) :
    (s.withNodes nodes).sequence.nodes[j]? = some entry := by
  refine h.withNodes_keeps hi hj fun e he d hd => ?_
  obtain ⟨k, hne, hk⟩ := hfront e he
  exact (h.nodup_node hi).2 k e hne hk d hd

/-- Behind an inserted node without indices, a node stays as it is. -/
theorem InSync.inserted_blank (h : s.InSync) (hi : s.nodes[i]? = some entry) {position : Nat}
    {inserted : SequenceEntry H}
    (hblank : ∀ d ∈ inserted.node.declarations, d.field.index = none) :
    (s.withNodes (s.nodes.insertIdx position inserted)).sequence.nodes[makeRoom position i]?
      = some entry := by
  rw [makeRoom]
  split
  · rename_i hle
    refine h.inserted_stays inserted hle hi fun d hd => ?_
    rintro ⟨own, hown, hshared⟩
    obtain ⟨e, -, hkey⟩ := h.exists_key (List.mem_of_getElem? hi) hd
    rw [hkey, Declaration.key?, hblank own hown] at hshared
    cases hshared
  · exact h.inserted_front inserted (by omega) hi

/-- A node stays as it is when another one is taken out. -/
theorem InSync.erased_other (h : s.InSync) (hi : s.nodes[i]? = some entry) {position : Nat}
    (hne : position ≠ i) :
    (s.withNodes (s.nodes.eraseIdx position)).sequence.nodes[Edit.closeUp position i]?
      = some entry := by
  refine h.withNodes_stays hi ?_ ?_
  · rw [getElem?_closeUp hne, hi]
  · intro e he
    obtain ⟨k, hk⟩ := List.mem_iff_getElem?.mp he
    rw [List.getElem?_take, Option.ite_none_right_eq_some] at hk
    obtain ⟨k', hk', -, rfl⟩ := exists_of_getElem?_eraseIdx hk.2
    exact ⟨k', fun heq => Nat.lt_irrefl _ (heq ▸ hk.1), hk'⟩

/-- A node that is moved stays as it is: what stands in front of its new place stood elsewhere
before. -/
theorem InSync.moved_self (h : s.InSync) (hi : s.nodes[i]? = some entry) {target : Nat}
    (htarget : target < s.nodes.length) :
    (s.withNodes ((s.nodes.eraseIdx i).insertIdx target entry)).sequence.nodes[target]?
      = some entry := by
  have hlength : (s.nodes.eraseIdx i).length = s.nodes.length - 1 :=
    List.length_eraseIdx_of_lt (List.getElem?_eq_some_iff.mp hi).1
  have hle : target ≤ (s.nodes.eraseIdx i).length := by omega
  refine h.withNodes_stays hi ?_ ?_
  · rw [List.getElem?_insertIdx, if_neg (Nat.lt_irrefl _), if_pos rfl, if_pos hle]
  · intro e he
    obtain ⟨-, hlt⟩ | ⟨k, hk, -⟩ := mem_take_insertIdx he
    · exact absurd hlt (Nat.lt_irrefl _)
    · obtain ⟨k', hk', hne, -⟩ := exists_of_getElem?_eraseIdx hk
      exact ⟨k', hne, hk'⟩

/-- A node stays as it is when another one is moved. -/
theorem InSync.moved_other (h : s.InSync) (hi : s.nodes[i]? = some entry) {position : Nat}
    {found : SequenceEntry H} (hfound : s.nodes[position]? = some found) (hne : position ≠ i)
    (target : Nat) :
    (s.withNodes ((s.nodes.eraseIdx position).insertIdx target found)).sequence.nodes[
      makeRoom target (Edit.closeUp position i)]? = some entry := by
  refine h.withNodes_stays hi ?_ ?_
  · rw [getElem?_makeRoom, getElem?_closeUp hne, hi]
  · -- in front of it there may be the moved node, and others that closed up
    intro e he
    obtain ⟨rfl, -⟩ | ⟨k, hk, hlt⟩ := mem_take_insertIdx he
    · exact ⟨position, hne, hfound⟩
    · obtain ⟨k', hk', -, rfl⟩ := exists_of_getElem?_eraseIdx hk
      exact ⟨k', fun heq => Nat.lt_irrefl _ (heq ▸ hlt), hk'⟩

end Sequence

namespace Edit

variable {s : Sequence H} {i j : Nat} {entry : SequenceEntry H}

theorem add_keeps (h : s.InSync) (hi : s.nodes[i]? = some entry) (id : NodeId)
    (node : SequenceNode H) : ((add id node).apply s).sequence.nodes[i]? = some entry := by
  have hlt : i < s.nodes.length := (List.getElem?_eq_some_iff.mp hi).1
  have happly : (add id node).apply s = s.withNodes (s.nodes ++ [.new id node]) :=
    congrArg Prod.snd (Sequence.add_eq s id node)
  rw [happly]
  refine h.withNodes_stays hi ?_ ?_
  · rw [List.getElem?_append_left hlt, hi]
  · intro e he
    rw [List.take_append_of_le_length (Nat.le_of_lt hlt)] at he
    obtain ⟨k, hk⟩ := List.mem_iff_getElem?.mp he
    rw [List.getElem?_take, Option.ite_none_right_eq_some] at hk
    exact ⟨k, Nat.ne_of_lt hk.1, hk.2⟩

theorem insert_keeps (h : s.InSync) (hi : s.nodes[i]? = some entry) {position : Nat} {id : NodeId}
    {node : SequenceNode H} (hblank : ∀ d ∈ node.declarations, d.field.index = none)
    (hj : (insert position id node).follow s i = some j) :
    ((insert position id node).apply s).sequence.nodes[j]? = some entry := by
  obtain rfl := Option.some.inj hj
  change (s.insert position id node).2.sequence.nodes[_]? = some entry
  by_cases hposition : position ≤ s.length
  · rw [if_pos hposition, Sequence.insert_of_le hposition]
    exact h.inserted_blank hi hblank
  · rw [if_neg hposition, Sequence.insert_of_lt (Nat.not_le.mp hposition)]
    exact hi

theorem erase_keeps (h : s.InSync) (hi : s.nodes[i]? = some entry) {id : NodeId}
    (hj : (erase id).follow s i = some j) :
    ((erase id).apply s).sequence.nodes[j]? = some entry := by
  rw [follow] at hj
  change (s.erase id).2.sequence.nodes[j]? = some entry
  cases hposition : s.position? id with
  | none =>
      rw [hposition] at hj
      obtain rfl := Option.some.inj hj
      rw [Sequence.erase_of_none (Sequence.locate?_of_position?_none hposition)]
      exact hi
  | some position =>
      obtain ⟨found, hlocate, -⟩ := Sequence.locate?_of_position? hposition
      rw [hposition] at hj
      obtain ⟨hne, rfl⟩ : position ≠ i ∧ closeUp position i = j := by simpa using hj
      rw [Sequence.erase_of_some hlocate]
      exact h.erased_other hi hne

theorem move_keeps (h : s.InSync) (hi : s.nodes[i]? = some entry) {id : NodeId} {target : Nat}
    (hj : (move id target).follow s i = some j) :
    ((move id target).apply s).sequence.nodes[j]? = some entry := by
  rw [follow] at hj
  change (s.move id target).2.sequence.nodes[j]? = some entry
  cases hposition : s.position? id with
  | none =>
      rw [hposition] at hj
      obtain rfl := Option.some.inj hj
      rw [Sequence.move_of_none (Sequence.locate?_of_position?_none hposition)]
      exact hi
  | some position =>
      obtain ⟨found, hlocate, hfound⟩ := Sequence.locate?_of_position? hposition
      simp only [hposition] at hj
      rcases Nat.lt_or_ge target s.length with htarget | htarget
      · rw [if_neg (Nat.not_le.mpr htarget)] at hj
        rw [Sequence.move_of_lt hlocate htarget]
        by_cases hself : position = i
        · subst hself
          rw [if_pos rfl] at hj
          obtain rfl := Option.some.inj hj
          obtain rfl := Option.some.inj (hfound.symm.trans hi)
          exact h.moved_self hi htarget
        · rw [if_neg hself] at hj
          obtain rfl := Option.some.inj hj
          exact h.moved_other hi hfound hself target
      · rw [if_pos htarget] at hj
        obtain rfl := Option.some.inj hj
        rw [Sequence.move_of_le hlocate htarget]
        exact hi

theorem rename_keeps (hi : s.nodes[i]? = some entry) (id : NodeId) (name : String) :
    ∃ name', ((rename id name).apply s).sequence.nodes[i]? = some { entry with name := name' } := by
  change ∃ name', (s.rename id name).2.sequence.nodes[i]? = some { entry with name := name' }
  rcases hlocate : s.locate? id with _ | ⟨position, found⟩
  · rw [Sequence.rename_of_none hlocate]
    exact ⟨entry.name, hi⟩
  · have hfound := (Sequence.locate?_eq_some hlocate).2
    rw [Sequence.rename_of_some hlocate]
    change ∃ name', (s.nodes.set position { found with name })[i]? = some { entry with name := name' }
    by_cases hself : position = i
    · subst hself
      obtain rfl : found = entry := Option.some.inj (hfound.symm.trans hi)
      exact ⟨name, List.getElem?_set_self (List.getElem?_eq_some_iff.mp hi).1⟩
    · exact ⟨entry.name, by rw [List.getElem?_set_ne hself, hi]⟩

/-- **Survival.** A gentle edit of a sequence in step leaves a node as it is that it does not
remove, but for the display name; it is found at the place that it goes to. -/
theorem follow_keeps (h : s.InSync) {e : Edit H} (hgentle : e.Gentle)
    (hi : s.nodes[i]? = some entry) (hj : e.follow s i = some j) :
    ∃ name, (e.apply s).sequence.nodes[j]? = some { entry with name } := by
  cases e with
  | add id node =>
      obtain rfl : i = j := Option.some.inj hj
      exact ⟨entry.name, add_keeps h hi id node⟩
  | insert position id node => exact ⟨entry.name, insert_keeps h hi hgentle hj⟩
  | erase id => exact ⟨entry.name, erase_keeps h hi hj⟩
  | move id target => exact ⟨entry.name, move_keeps h hi hj⟩
  | edit id change => exact hgentle.elim
  | rename id name =>
      obtain rfl : i = j := Option.some.inj hj
      exact rename_keeps hi id name
  | reconcile =>
      obtain rfl : i = j := Option.some.inj hj
      have happly : (reconcile : Edit H).apply s = s.reconcile :=
        congrArg Prod.snd (Sequence.Editing.run_reconcile .unbounded s)
      refine ⟨entry.name, ?_⟩
      rw [happly, h.reconcile_eq]
      exact hi

end Edit

end Sequencer
