import Sequencer.Proofs.Registry.Numbering
import Sequencer.Proofs.Registry.Survival

/-!
# Sequencer.Proofs.Registry.Edits

The edits of a sequence as operations on its list of nodes.

* `Sequence.others`: the nodes but for one. A move puts that one back at its new place
  (`Sequence.move_eq`), a removal does not (`Sequence.erase_eq`);
* `Sequence.InSync.withNodes_of_perm`: nodes that only change places leave the registry alone;
* `Sequence.InSync.withNodes_others`: without a node its entries go, and nothing else does;
* `Sequence.edits_atomic`: all of it, and that an edit that does not apply changes nothing, after
  any history of calls.
-/

namespace Sequencer

variable {H : Host}

namespace Registry

/-- Of the entries that describe some fields, those of certain nodes describe their fields. -/
theorem filter_described {claims : List Claim} {entries : List Descriptor}
    (h : claims.map Claim.descriptor? = entries.map some) (p : NodeId → Bool) :
    (claims.filter (p ·.node)).map Claim.descriptor?
      = (entries.filter (p ·.node)).map some := by
  induction claims generalizing entries with
  | nil =>
      obtain rfl : entries = [] := by simpa using h.symm
      rfl
  | cons c rest ih =>
      cases entries with
      | nil => simp at h
      | cons d entries =>
          obtain ⟨hc, hrest⟩ := List.cons.inj h
          have hnode : d.node = c.node := by
            rw [← (Claim.descriptor?_eq_some_iff.mp hc).2]
            rfl
          rw [List.filter_cons, List.filter_cons, hnode]
          split
          · rw [List.map_cons, List.map_cons, hc, ih hrest]
          · exact ih hrest

end Registry

namespace Sequence

open Registry

variable {s : Sequence H} {entry : SequenceEntry H}

/-- The nodes but for the one with an identifier, in order. -/
def others (s : Sequence H) (id : NodeId) : List (SequenceEntry H) :=
  s.nodes.filter (·.id ≠ id)

/-- A node stands between two parts of the list, and they are the other nodes. -/
theorem exists_split (hids : (s.nodes.map (·.id)).Nodup) (hentry : entry ∈ s.nodes) :
    ∃ front back, s.nodes = front ++ entry :: back ∧ s.others entry.id = front ++ back ∧
      ∀ e ∈ front, e.id ≠ entry.id := by
  obtain ⟨front, back, hnodes⟩ := List.append_of_mem hentry
  rw [hnodes, List.map_append, List.map_cons] at hids
  have hnew := (List.nodup_middle.mp hids).notMem
  rw [← List.map_append] at hnew
  have hother : ∀ e ∈ front ++ back, e.id ≠ entry.id := by
    intro e he heq
    exact hnew (heq ▸ List.mem_map_of_mem he)
  refine ⟨front, back, hnodes, ?_, fun e he => hother e (List.mem_append_left _ he)⟩
  rw [others, hnodes, List.filter_append, List.filter_cons_of_neg (by simp), ← List.filter_append]
  exact List.filter_eq_self.mpr fun e he => by simpa using hother e he

theorem locate?_eq_none {id : NodeId} (h : id ∉ s.nodes.map (·.id)) : s.locate? id = none := by
  refine locate?_of_position?_none (List.findIdx?_eq_none_iff.mpr fun e he => ?_)
  refine beq_false_of_ne fun heq => h ?_
  exact heq ▸ List.mem_map_of_mem he

/-- A node is found where it stands; without it there are the other nodes. -/
theorem locate?_eq (hids : (s.nodes.map (·.id)).Nodup) (hentry : entry ∈ s.nodes) :
    ∃ position, s.locate? entry.id = some (position, entry) ∧
      s.nodes.eraseIdx position = s.others entry.id := by
  obtain ⟨front, back, hnodes, hothers, hfront⟩ := exists_split hids hentry
  have hposition : s.position? entry.id = some front.length := by
    rw [position?, hnodes, List.findIdx?_append,
      List.findIdx?_eq_none_iff.mpr (by simpa using hfront)]
    simp [List.findIdx?_cons]
  obtain ⟨found, hlocate, hat⟩ := locate?_of_position? hposition
  obtain rfl : entry = found := by simpa [hnodes] using hat
  refine ⟨front.length, hlocate, ?_⟩
  rw [hothers, hnodes]
  simp [List.eraseIdx_append_of_length_le]

/-- A removal leaves the other nodes. -/
theorem erase_eq (hids : (s.nodes.map (·.id)).Nodup) (hentry : entry ∈ s.nodes) :
    s.erase entry.id = (some entry, s.withNodes (s.others entry.id)) := by
  obtain ⟨position, hlocate, hothers⟩ := locate?_eq hids hentry
  rw [erase_of_some hlocate, hothers]

/-- A move puts the node back among the others. -/
theorem move_eq (hids : (s.nodes.map (·.id)).Nodup) (hentry : entry ∈ s.nodes) (target : Nat) :
    s.move entry.id target
      = if target < s.length then
          (.ok (), s.withNodes ((s.others entry.id).insertIdx target entry))
        else (.error (.indexOutOfRange target s.length), .unchanged s) := by
  obtain ⟨position, hlocate, hothers⟩ := locate?_eq hids hentry
  split
  next htarget => rw [move_of_lt hlocate htarget, hothers]
  next htarget => exact move_of_le hlocate (Nat.not_lt.mp htarget)

/-- The fields of the other nodes are the other nodes' fields. -/
theorem claims_others (s : Sequence H) (id : NodeId) :
    claims (s.others id) = (claims s.nodes).filter (·.node ≠ id) := by
  rw [claims, claims, others, List.filter_flatMap]
  induction s.nodes with
  | nil => rfl
  | cons e rest ih =>
      by_cases he : e.id = id
      · rw [List.filter_cons_of_neg (by simpa using he), ih, List.flatMap_cons]
        simp [List.filter_map, Function.comp_def, he]
      · rw [List.filter_cons_of_pos (by simpa using he), List.flatMap_cons, ih, List.flatMap_cons]
        simp [List.filter_map, Function.comp_def, he]

/-- Nodes of a sequence in step that only change places keep their fields, and the registry stays as
it is. -/
theorem InSync.withNodes_of_perm (h : s.InSync) {nodes : List (SequenceEntry H)}
    (hperm : nodes.Perm s.nodes) : s.withNodes nodes = .unchanged { s with nodes } := by
  have hsync : ({ s with nodes } : Sequence H).InSync :=
    ⟨((hperm.flatMap_right _).map _).trans h.describes, h.ascending⟩
  exact hsync.reconcile_eq

/-- Without one of its nodes, a sequence in step has the other nodes as they are, and the entries of
their fields. -/
theorem InSync.withNodes_others (h : s.InSync) (id : NodeId) :
    (s.withNodes (s.others id)).sequence
      = { s with nodes := s.others id, registry := s.registry.filter (·.node ≠ id) } := by
  obtain ⟨entries, hentries, hperm⟩ := h.exists_entries
  have hdescribed := filter_described hentries (· ≠ id)
  rw [← claims_others] at hdescribed
  have hindices : (claims (s.others id)).map (·.declaration.field.index)
      = ((entries.filter (·.node ≠ id)).map (·.index)).map some := by
    have := congrArg (List.map (Option.map Descriptor.index)) hdescribed
    simpa [Function.comp_def, Claim.descriptor?] using this
  have hrest : s.registry.filter (· ∈ entries.filter (·.node ≠ id))
      = s.registry.filter (·.node ≠ id) := by
    refine List.filter_congr fun d hd => ?_
    simp [hperm.mem_iff.mpr hd]
  rw [withNodes, reconcile_def, reconcile_of_part h.ascending hdescribed
    (fun d hd => hperm.mem_iff.mp (List.mem_of_mem_filter hd))
    ((hperm.symm.nodup h.ascending.nodup).filter _)]
  simp only [assignAll_self _ hindices, hrest]

/-- In step, the entries of a node are those that its fields have the address of. -/
theorem InSync.node_eq_iff (h : s.InSync) (hids : (s.nodes.map (·.id)).Nodup)
    (hentry : entry ∈ s.nodes) {d : Descriptor} (hd : d ∈ s.registry) :
    d.node = entry.id ↔ ∃ field ∈ entry.node.declarations, field.key? = some d.key := by
  constructor
  · intro hnode
    obtain ⟨c, hc, hcd⟩ := List.mem_map.mp (h.describes.mem_iff.mpr (List.mem_map_of_mem hd))
    obtain ⟨e, he, hc⟩ := List.mem_flatMap.mp hc
    obtain ⟨field, hfield, rfl⟩ := List.mem_map.mp hc
    have hid : e.id = entry.id := by
      rw [← hnode, ← (Claim.descriptor?_eq_some_iff.mp hcd).2]
      rfl
    obtain rfl := List.inj_on_of_nodup_map hids he hentry hid
    exact ⟨field, hfield, Claim.key?_of_descriptor? hcd⟩
  · intro hfield
    obtain ⟨field, hfield, hkey⟩ := hfield
    have hmem := List.mem_map_of_mem (f := Claim.descriptor?) (mem_claims hentry hfield)
    obtain ⟨e, he, hed⟩ := List.mem_map.mp (h.describes.mem_iff.mp hmem)
    have hindex : e.index = d.index := congrArg OverrideKey.index
      (Option.some.inj ((Claim.key?_of_descriptor? hed.symm).symm.trans hkey))
    rw [← h.ascending.eq_of_index_eq he hd hindex, ← (Claim.descriptor?_eq_some_iff.mp hed.symm).2]
    rfl

/-- A reconciled node list has the same nodes in the same places, but for the indices of their
fields. -/
theorem withNodes_same (h : s.registry.Ascending) (nodes : List (SequenceEntry H)) :
    List.Forall₂ (fun before after => before.Reindexed (fun _ _ => True) (some after)) nodes
      (s.withNodes nodes).sequence.nodes := by
  refine List.forall₂_iff_get.mpr ⟨(length_withNodes s nodes).symm, fun i hi hi' => ?_⟩
  have hat : Entry.Reindexed _ (fun _ _ => True) (s.withNodes nodes).sequence.nodes[i]? :=
    withNodes_reindexed h (List.getElem?_eq_getElem hi) fun _ _ _ _ _ => trivial
  rwa [List.getElem?_eq_getElem hi'] at hat

/-- A node of a sequence in step moves to any place in the list, and nothing but the order of the
nodes changes. -/
theorem InSync.move_unchanged (h : s.InSync) (hids : (s.nodes.map (·.id)).Nodup)
    (hentry : entry ∈ s.nodes) {target : Nat} (htarget : target < s.length) :
    ∃ nodes, s.move entry.id target = (.ok (), .unchanged { s with nodes }) ∧
      nodes[target]? = some entry ∧ nodes.eraseIdx target = s.others entry.id := by
  obtain ⟨front, back, hnodes, hothers, -⟩ := exists_split hids hentry
  have hlength : target ≤ (s.others entry.id).length := by
    rw [length, hnodes, List.length_append, List.length_cons] at htarget
    rw [hothers, List.length_append]
    omega
  refine ⟨(s.others entry.id).insertIdx target entry, ?_, ?_, List.eraseIdx_insertIdx_self _⟩
  · rw [move_eq hids hentry, if_pos htarget, h.withNodes_of_perm]
    refine (List.perm_insertIdx entry _ hlength).trans ?_
    rw [hothers, hnodes]
    exact List.perm_middle.symm
  · rw [List.getElem?_insertIdx, if_neg (Nat.lt_irrefl _), if_pos rfl, if_pos hlength]

/-- **Edits of the node list.** For a sequence that calls made, whose nodes are told apart by their
identifiers:

* a node can be inserted exactly at a position up to the end, and the list is then the old one with
  the node there, each node as it was but for the indices of fields that it shares with the new one;
* a node can be moved exactly to a place that the list has, and is found there then, among the other
  nodes in their order; no field changes its index, and the registry is as it was;
* a removed node is handed out, and the list is then that of the other nodes; the entries that the
  node's fields have the address of are gone, and the others are as they were;
* a node that the sequence does not have can neither be moved, whatever the target, nor removed,
  edited or renamed;
* what an edit leaves that does not apply is the sequence as it was.

In 32 bits an edit comes to all this as well, with sums that are checked and with sums that wrap
around; if it is ended by a sum, then the next index behind all that it hands out does not fit. -/
theorem edits_atomic (hs : s.Authored) (hids : (s.nodes.map (·.id)).Nodup) :
    (∀ position nodeId node,
      if position ≤ s.length then
        ∃ edited, s.insert position nodeId node = (.ok nodeId, edited) ∧
          List.Forall₂ (fun before after => before.Reindexed (fun _ _ => True) (some after))
            (s.nodes.insertIdx position (.new nodeId node)) edited.sequence.nodes ∧
          edited.sequence.nodes.take position = s.nodes.take position ∧
          ((∀ entry ∈ s.nodes.drop position, ∀ d ∈ entry.node.declarations, ¬ node.Shares d) →
            edited.sequence.nodes.eraseIdx position = s.nodes)
      else s.insert position nodeId node
        = (.error (.indexOutOfRange position s.length), .unchanged s)) ∧
    (∀ entry ∈ s.nodes,
      (∀ target,
        if target < s.length then
          ∃ nodes, s.move entry.id target = (.ok (), .unchanged { s with nodes }) ∧
            nodes[target]? = some entry ∧ nodes.eraseIdx target = s.others entry.id
        else s.move entry.id target
          = (.error (.indexOutOfRange target s.length), .unchanged s)) ∧
      (∃ edited, s.erase entry.id = (some entry, edited) ∧
        edited.sequence
          = { s with
              nodes := s.others entry.id
              registry := s.registry.filter (·.node ≠ entry.id) }) ∧
      (∀ d ∈ s.registry,
        d.node = entry.id ↔ ∃ field ∈ entry.node.declarations, field.key? = some d.key) ∧
      (∀ (α : Type) (change : SequenceNode H → α × SequenceNode H),
        (s.edit entry.id change).1 = some (change entry.node).1) ∧
      ∀ title, (s.rename entry.id title).1 = true) ∧
    (∀ nodeId, nodeId ∉ s.nodes.map (·.id) →
      (∀ target, s.move nodeId target = (.error (.nodeNotFound nodeId), .unchanged s)) ∧
      s.erase nodeId = (none, .unchanged s) ∧
      (∀ (α : Type) (change : SequenceNode H → α × SequenceNode H),
        s.edit nodeId change = (none, .unchanged s)) ∧
      ∀ title, s.rename nodeId title = (false, .unchanged s)) ∧
    (∀ edit : Edit H,
      edit.outcome32? s = some (edit.outcome s) ∧ edit.wrapped s = edit.outcome s ∨
        edit.outcome32? s = none ∧
          limit32 ≤ nextIndex s.registry + (edit.apply s).report.added) := by
  have hsync : s.InSync := hs.inSync
  refine ⟨?insert, ?present, ?absent, ?sums⟩
  case insert =>
    intro position nodeId node
    split
    next hposition =>
      exact ⟨s.withNodes (s.nodes.insertIdx position (.new nodeId node)), insert_of_le hposition ..,
        withNodes_same hsync.ascending _, hsync.take_inserted (.new nodeId node) hposition,
        (hsync.eraseIdx_inserted_iff (.new nodeId node) hposition).mpr⟩
    next hposition => exact insert_of_lt (Nat.not_le.mp hposition) ..
  case present =>
    intro entry hentry
    obtain ⟨position, hlocate, -⟩ := locate?_eq hids hentry
    refine ⟨fun target => ?_, ⟨_, erase_eq hids hentry, hsync.withNodes_others entry.id⟩,
      fun d hd => hsync.node_eq_iff hids hentry hd, fun α change => ?_, fun title => ?_⟩
    · split
      next htarget => exact hsync.move_unchanged hids hentry htarget
      next htarget => rw [move_eq hids hentry, if_neg htarget]
    · rw [edit_of_some hlocate]
    · rw [rename_of_some hlocate]
  case absent =>
    intro nodeId habsent
    have hlocate := locate?_eq_none habsent
    exact ⟨move_of_none hlocate, erase_of_none hlocate, fun α change => edit_of_none hlocate change,
      rename_of_none hlocate⟩
  case sums =>
    intro edit
    rcases h : edit.outcome32? s with _ | r
    · refine .inr ⟨rfl, Nat.le_of_not_lt fun hfits => ?_⟩
      cases h.symm.trans (Edit.outcome32?_eq hfits)
    · obtain ⟨hfits, hwraps⟩ := Edit.outcome_of_checked h
      exact .inl ⟨by rw [hfits], by rw [hwraps, hfits]⟩

/-- Two lines of text, and a jump between them. -/
def overture : Sequence Host.none :=
  (Sequence.new ⟨.ofNat 3⟩ "overture").author
    [.add ⟨.ofNat 1⟩ (.log (.new "Hush") .info), .add ⟨.ofNat 2⟩ (.skip (.new 1)),
      .add ⟨.ofNat 3⟩ (.log (.new "Hark") .info)]

theorem authored_overture : overture.Authored := by
  have hfirst := (Sequence.Authored.new (H := Host.none) ⟨.ofNat 3⟩ "overture" false).edit
    (.add ⟨.ofNat 1⟩ (.log (.new "Hush") .info)) nofun
  have hsecond := hfirst.edit (.add ⟨.ofNat 2⟩ (.skip (.new 1))) nofun
  exact hsecond.edit (.add ⟨.ofNat 3⟩ (.log (.new "Hark") .info)) nofun

/-- The first line moves to the last place, or goes with its entry; it cannot move any further, and
a node that is not there cannot be moved at all. -/
theorem edits_atomic_overture :
    (∃ nodes, overture.move ⟨.ofNat 1⟩ 2 = (.ok (), .unchanged { overture with nodes }) ∧
      (nodes[2]?).map (·.id) = some ⟨.ofNat 1⟩ ∧
      (nodes.eraseIdx 2).map (·.id) = [⟨.ofNat 2⟩, ⟨.ofNat 3⟩]) ∧
    (∃ entry edited, overture.erase ⟨.ofNat 1⟩ = (some entry, edited) ∧
      edited.sequence.registry.map (·.index) = [⟨1⟩, ⟨2⟩]) ∧
    overture.move ⟨.ofNat 1⟩ 3 = (.error (.indexOutOfRange 3 3), .unchanged overture) ∧
    overture.move ⟨.ofNat 4⟩ 9 = (.error (.nodeNotFound ⟨.ofNat 4⟩), .unchanged overture) := by
  obtain ⟨-, hpresent, habsent, -⟩ := edits_atomic authored_overture (by decide)
  have hhead : overture.nodes.head (by decide) ∈ overture.nodes := List.head_mem _
  obtain ⟨hmove, ⟨edited, herase, hedited⟩, -⟩ := hpresent _ hhead
  obtain ⟨nodes, hok, hat, hrest⟩ := hmove 2
  refine ⟨⟨nodes, hok, ?_, ?_⟩, ⟨_, edited, herase, ?_⟩, hmove 3, (habsent _ (by decide)).1 9⟩
  · rw [hat]; rfl
  · rw [hrest]; rfl
  · rw [hedited]; rfl

end Sequence

end Sequencer
