import Mathlib.Data.List.InsertIdx
import Sequencer.Proofs.Registry.Precedence

/-!
# Sequencer.Proofs.Registry.Insertion

What an insertion does to the override fields of the nodes that are there already.

An inserted node may carry addresses of other nodes' fields, as a copy of one of them does. Behind
the node that it copies it gets fresh indices, and nobody loses one. In front of it the copy comes
first, so that it takes the entry over, and the field that had it gets a fresh index. So nothing is
taken over exactly if the inserted node shares no field with the nodes behind it
(`insert_keeps_iff`). In front of the line that it copies, an `understudy` does (`upstaged`).
-/

namespace Sequencer

variable {H : Host}

namespace Sequence

open Registry

/-- The place of a node after another one was put in at a position. -/
def makeRoom (position i : Nat) : Nat := if position ≤ i then i + 1 else i

theorem getElem?_makeRoom {α : Type} {l : List α} {position i : Nat} {inserted : α} :
    (l.insertIdx position inserted)[makeRoom position i]? = l[i]? := by
  rw [List.getElem?_insertIdx, makeRoom]
  split
  · rename_i hle
    rw [if_neg (by omega), if_neg (by omega), Nat.add_sub_cancel]
  · rename_i hlt
    rw [if_pos (by omega)]

/-- What stands in front of a place after an insertion: the inserted element, or an old one. -/
theorem mem_take_insertIdx {α : Type} {l : List α} {position n : Nat} {inserted a : α}
    (h : a ∈ (l.insertIdx position inserted).take n) :
    (a = inserted ∧ position < n) ∨ ∃ k, l[k]? = some a ∧ makeRoom position k < n := by
  obtain ⟨k, hk⟩ := List.mem_iff_getElem?.mp h
  rw [List.getElem?_take, Option.ite_none_right_eq_some, List.getElem?_insertIdx] at hk
  obtain ⟨hkn, hk⟩ := hk
  rcases Nat.lt_trichotomy k position with hlt | rfl | hgt
  · rw [if_pos hlt] at hk
    refine .inr ⟨k, hk, ?_⟩
    rwa [makeRoom, if_neg (Nat.not_le.mpr hlt)]
  · rw [if_neg (Nat.lt_irrefl k), if_pos rfl, Option.ite_none_right_eq_some] at hk
    exact .inl ⟨(Option.some.inj hk.2).symm, hkn⟩
  · rw [if_neg (by omega), if_neg (by omega)] at hk
    refine .inr ⟨k - 1, hk, ?_⟩
    rwa [makeRoom, if_pos (by omega), Nat.sub_add_cancel (by omega)]

variable {s : Sequence H} {position : Nat} (inserted : SequenceEntry H)

/-- A node in front of an inserted one stays as it is. -/
theorem InSync.inserted_front (h : s.InSync) {i : Nat} (hi : i < position)
    {entry : SequenceEntry H} (hentry : s.nodes[i]? = some entry) :
    (s.withNodes (s.nodes.insertIdx position inserted)).sequence.nodes[i]? = some entry := by
  refine h.withNodes_keeps hentry ?_ ?_
  · rw [List.getElem?_insertIdx, if_pos hi, hentry]
  · intro e he d hd
    obtain ⟨-, hlt⟩ | ⟨k, hk, hki⟩ := mem_take_insertIdx he
    · omega
    · have hne : k ≠ i := by
        rintro rfl
        rw [makeRoom] at hki
        split at hki <;> omega
      exact (h.nodup_node hentry).2 k e hne hk d hd

/-- All nodes in front of an inserted one stay as they are. -/
theorem InSync.take_inserted (h : s.InSync) (hposition : position ≤ s.nodes.length) :
    (s.withNodes (s.nodes.insertIdx position inserted)).sequence.nodes.take position
      = s.nodes.take position := by
  refine List.ext_getElem? fun i => ?_
  rw [List.getElem?_take, List.getElem?_take]
  split
  next hi =>
    have hentry : s.nodes[i]? = some s.nodes[i] := List.getElem?_eq_getElem (by omega)
    rw [hentry]
    exact h.inserted_front inserted hi hentry
  next => rfl

/-- A field behind an inserted node keeps its index, unless the inserted node shares it: then it
gets a fresh one. -/
theorem InSync.inserted_behind (h : s.InSync) {i : Nat} (hi : position ≤ i)
    {entry : SequenceEntry H} (hentry : s.nodes[i]? = some entry) :
    entry.Reindexed
      (fun d index => if inserted.node.Shares d then nextIndex s.registry ≤ index.number
        else d.field.index = some index)
      (s.withNodes (s.nodes.insertIdx position inserted)).sequence.nodes[i + 1]? := by
  have hlt := (List.getElem?_eq_some_iff.mp hentry).1
  refine withNodes_reindexed h.ascending ?_ ?_
  · rw [List.getElem?_insertIdx, if_neg (by omega), if_neg (by omega)]
    exact hentry
  · intro j d index hd hearned
    have hkeeps := h.keeps_iff hentry ((s.nodes.insertIdx position inserted).take (i + 1)) hd
    split
    next hshares =>
      refine hearned.fresh fun hown => hkeeps.mp hown inserted ?_ hshares
      refine List.mem_iff_getElem?.mpr ⟨position, ?_⟩
      rw [List.getElem?_take_of_lt (by omega), List.getElem?_insertIdx, if_neg (by omega),
        if_pos rfl, if_pos (by omega)]
    next hshares =>
      refine hearned.own (hkeeps.mpr fun e he => ?_)
      obtain ⟨rfl, -⟩ | ⟨k, hk, hki⟩ := mem_take_insertIdx he
      · exact hshares
      · have hne : k ≠ i := by
          rintro rfl
          rw [makeRoom, if_pos hi] at hki
          exact Nat.lt_irrefl _ hki
        exact (h.nodup_node hentry).2 k e hne hk d (List.mem_of_getElem? hd)

/-- A field of an inserted node gets a fresh index, or it takes over the one of a field behind. -/
theorem InSync.inserted_self (h : s.InSync) (hposition : position ≤ s.nodes.length) :
    inserted.Reindexed
      (fun d index => nextIndex s.registry ≤ index.number ∨
        d.field.index = some index ∧ ∃ entry ∈ s.nodes.drop position, entry.node.Shares d)
      (s.withNodes (s.nodes.insertIdx position inserted)).sequence.nodes[position]? := by
  refine withNodes_reindexed h.ascending ?_ ?_
  · rw [List.getElem?_insertIdx, if_neg (Nat.lt_irrefl _), if_pos rfl, if_pos hposition]
  · intro j d index hd hearned
    by_cases hkeeps : s.registry.Keeps
        (before ((s.nodes.insertIdx position inserted).take position) inserted j) ⟨inserted.id, d⟩
    · refine .inr ⟨hearned.own hkeeps, ?_⟩
      -- the entry is that of some node's field, and the nodes in front do not carry its address
      obtain ⟨e, he, hkey, hfirst⟩ := hkeeps
      obtain ⟨c, hc, hce⟩ := List.mem_map.mp (h.describes.mem_iff.mpr (List.mem_map_of_mem he))
      have hckey := Claim.key?_of_descriptor? hce
      obtain ⟨entry, hentry, hc⟩ := List.mem_flatMap.mp hc
      obtain ⟨own, hown, rfl⟩ := List.mem_map.mp hc
      rw [← List.take_append_drop position s.nodes] at hentry
      rcases List.mem_append.mp hentry with hentry | hentry
      · refine absurd ⟨⟨entry.id, own⟩, List.mem_append_left _ ?_, hckey⟩ hfirst
        refine mem_claims ?_ hown
        rwa [List.take_insertIdx_eq_take_of_le _ _ _ _ (Nat.le_refl position)]
      · exact ⟨entry, hentry, own, hown, hckey.trans hkey.symm⟩
    · exact .inl (hearned.fresh hkeeps)

/-- In step, registered indices are below all fresh ones. -/
theorem InSync.not_fresh (h : s.InSync) {entry : SequenceEntry H} (hentry : entry ∈ s.nodes)
    {d : Declaration} (hd : d ∈ entry.node.declarations) {index : OverrideIndex}
    (hindex : d.field.index = some index) : ¬ nextIndex s.registry ≤ index.number := by
  obtain ⟨e, he, hkey⟩ := h.exists_key hentry hd
  obtain rfl : index = e.index :=
    Option.some.inj (hindex.symm.trans (Declaration.index_of_key? hkey).1)
  have := index_lt_nextIndex he
  omega

/-- A node behind an inserted one that shares none of its fields stays as it is. -/
theorem InSync.inserted_stays (h : s.InSync) {i : Nat} (hi : position ≤ i)
    {entry : SequenceEntry H} (hentry : s.nodes[i]? = some entry)
    (hfree : ∀ d ∈ entry.node.declarations, ¬ inserted.node.Shares d) :
    (s.withNodes (s.nodes.insertIdx position inserted)).sequence.nodes[i + 1]? = some entry := by
  refine ((h.inserted_behind inserted hi hentry).imp fun d hd index hrule => ?_).eq_some
  rwa [if_neg (hfree d hd)] at hrule

/-- A node behind an inserted one that stays as it is shares none of its fields: it would have got
a fresh index. -/
theorem InSync.not_shares (h : s.InSync) {i : Nat} (hi : position ≤ i)
    {entry : SequenceEntry H} (hentry : s.nodes[i]? = some entry)
    (hstays : (s.withNodes (s.nodes.insertIdx position inserted)).sequence.nodes[i + 1]?
      = some entry) : ∀ d ∈ entry.node.declarations, ¬ inserted.node.Shares d := by
  intro d hd hshares
  have hreindexed := h.inserted_behind inserted hi hentry
  rw [hstays] at hreindexed
  obtain ⟨index, hindex, hfresh⟩ := hreindexed.exists_index hd
  rw [if_pos hshares] at hfresh
  exact h.not_fresh (List.mem_of_getElem? hentry) hd hindex hfresh

/-- All nodes stay as they are exactly if the inserted one shares no field with those behind it. -/
theorem InSync.eraseIdx_inserted_iff (h : s.InSync) (hposition : position ≤ s.nodes.length) :
    (s.withNodes (s.nodes.insertIdx position inserted)).sequence.nodes.eraseIdx position = s.nodes ↔
      ∀ entry ∈ s.nodes.drop position, ∀ d ∈ entry.node.declarations,
        ¬ inserted.node.Shares d := by
  constructor
  · intro hstay entry hmem
    obtain ⟨k, hk⟩ := List.mem_iff_getElem?.mp hmem
    rw [List.getElem?_drop] at hk
    refine h.not_shares inserted (Nat.le_add_right _ _) hk ?_
    rw [← hk, ← hstay, List.getElem?_eraseIdx, if_neg (by omega), hstay]
  · intro hfree
    refine List.ext_getElem? fun i => ?_
    rw [List.getElem?_eraseIdx]
    cases hentry : s.nodes[i]? with
    | none =>
        rw [List.getElem?_eq_none_iff] at hentry
        -- both lists end here: the insertion and the removal cancel out
        rw [if_neg (by omega), List.getElem?_eq_none_iff, length_withNodes,
          List.length_insertIdx_of_le_length hposition]
        omega
    | some entry =>
        split
        next hi => exact h.inserted_front inserted hi hentry
        next hi =>
          refine h.inserted_stays inserted (Nat.not_lt.mp hi) hentry (hfree entry ?_)
          refine List.mem_iff_getElem?.mpr ⟨i - position, ?_⟩
          rw [List.getElem?_drop, Nat.add_sub_cancel' (Nat.not_lt.mp hi), hentry]

/-- **Insertion.** Inserting a node at a position, into a sequence after any history of calls,
leaves the nodes in front as they are; a field behind keeps its index exactly if the inserted node
does not share it, and gets a fresh one otherwise; a field of the inserted node gets a fresh index,
or takes over the one of a field behind. So all nodes stay as they are, and the inserted fields
alone get fresh indices, exactly if the inserted node shares no field with the nodes from the
position on. -/
theorem insert_keeps_iff (id : SequenceId) (name : String) (parallel : Bool)
    (edits : List (Edit H)) (position : Nat) (nodeId : NodeId) (node : SequenceNode H)
    {edited : Edited H}
    (h : ((Sequence.new id name parallel : Sequence H).author edits).insert position nodeId node
      = (.ok nodeId, edited)) :
    let s := (Sequence.new id name parallel : Sequence H).author edits
    let s' := edited.sequence
    let Fresh := fun index : OverrideIndex => nextIndex s.registry ≤ index.number
    s'.nodes.take position = s.nodes.take position ∧
    (∀ i entry, position ≤ i → s.nodes[i]? = some entry →
      entry.Reindexed
        (fun d index => if node.Shares d then Fresh index else d.field.index = some index)
        s'.nodes[i + 1]?) ∧
    (Entry.new nodeId node).Reindexed
      (fun d index => Fresh index ∨
        d.field.index = some index ∧ ∃ entry ∈ s.nodes.drop position, entry.node.Shares d)
      s'.nodes[position]? ∧
    (s'.nodes.eraseIdx position = s.nodes ∧
        (Entry.new nodeId node).Reindexed (fun _ => Fresh) s'.nodes[position]? ↔
      ∀ entry ∈ s.nodes.drop position, ∀ d ∈ entry.node.declarations, ¬ node.Shares d) := by
  intro s s' Fresh
  have hsync : s.InSync := (inSync_new id name parallel).author edits
  obtain ⟨hposition, rfl⟩ : position ≤ s.nodes.length ∧
      edited = s.withNodes (s.nodes.insertIdx position (.new nodeId node)) := by
    rcases Nat.lt_or_ge s.length position with hlt | hle
    · rw [insert_of_lt hlt] at h
      cases congrArg Prod.fst h
    · rw [insert_of_le hle] at h
      exact ⟨hle, (congrArg Prod.snd h).symm⟩
  have hfront : ∀ i, i < position → s'.nodes[i]? = s.nodes[i]? := by
    intro i hi
    have hentry : s.nodes[i]? = some s.nodes[i] := List.getElem?_eq_getElem (by omega)
    rw [hentry]
    exact hsync.inserted_front _ hi hentry
  have hself : (Entry.new nodeId node).Reindexed
      (fun d index => Fresh index ∨
        d.field.index = some index ∧ ∃ entry ∈ s.nodes.drop position, entry.node.Shares d)
      s'.nodes[position]? :=
    hsync.inserted_self _ hposition
  have hiff := hsync.eraseIdx_inserted_iff (.new nodeId node) hposition
  refine ⟨?_, fun i entry hi hentry => hsync.inserted_behind (.new nodeId node) hi hentry, hself,
    fun hstay => hiff.mp hstay.1, fun hfree => ⟨hiff.mpr hfree, hself.imp ?_⟩⟩
  · refine List.ext_getElem? fun i => ?_
    rw [List.getElem?_take, List.getElem?_take]
    split
    next hi => exact hfront i hi
    next => rfl
  · -- an inserted field that took over an index would share it
    rintro d hd index (hfresh | ⟨hindex, entry, hmem, own, hown, hshared⟩)
    · exact hfresh
    · exact absurd ⟨d, hd, hshared.symm⟩ (hfree entry hmem own hown)

/-- One line of text. -/
def scene : Sequence Host.none :=
  (Sequence.new ⟨.ofNat 1⟩ "scene").author [.add ⟨.ofNat 1⟩ (.log (.new "To be") .info)]

/-- A copy of the line with another text. -/
def understudy : SequenceNode Host.none := .log ⟨some ⟨0⟩, "Not to be"⟩ .info

/-- The indices of the fields that the nodes declare, node by node. -/
def indexes (s : Sequence H) : List (List (Option OverrideIndex)) :=
  s.nodes.map fun entry => entry.node.declarations.map (·.field.index)

/-- Behind the line that it copies, the understudy leaves it alone. -/
theorem insert_keeps_iff_scene :
    ∃ edited, scene.insert 1 ⟨.ofNat 2⟩ understudy = (.ok ⟨.ofNat 2⟩, edited) ∧
      edited.sequence.nodes.eraseIdx 1 = scene.nodes := by
  obtain ⟨-, -, -, hiff⟩ := insert_keeps_iff (H := Host.none) ⟨.ofNat 1⟩ "scene" false
    [.add ⟨.ofNat 1⟩ (.log (.new "To be") .info)] 1 ⟨.ofNat 2⟩ understudy rfl
  exact ⟨_, rfl, (hiff.mpr nofun).1⟩

/-- **Upstaged.** In front of the line that it copies, the understudy takes its entry over, and the
line gets a fresh index. -/
theorem upstaged :
    scene.indexes = [[some ⟨0⟩]] ∧
    ∃ edited, scene.insert 0 ⟨.ofNat 2⟩ understudy = (.ok ⟨.ofNat 2⟩, edited) ∧
      edited.sequence.indexes = [[some ⟨0⟩], [some ⟨1⟩]] ∧
      edited.sequence.nodes.map (·.id) = [⟨.ofNat 2⟩, ⟨.ofNat 1⟩] ∧
      edited.sequence.registry.map (fun d => (d.index, d.node, d.defaultValue))
        = [(⟨0⟩, ⟨.ofNat 2⟩, .string "Not to be"), (⟨1⟩, ⟨.ofNat 1⟩, .string "To be")] :=
  ⟨rfl, _, rfl, rfl, rfl, rfl⟩

end Sequence

end Sequencer
