import Mathlib.Data.List.Forall2
import Sequencer.Proofs.Registry.Synchrony

/-!
# Sequencer.Proofs.Registry.Precedence

Which of the fields that carry one address keeps it.

A reconciliation takes the declared fields up in order, so an entry goes to the first field that
carries its address. Every other field gets an index above all of the registry's.

* `Registry.Keeps`: a field carries an entry's address, and no field before it does;
* `Registry.Handed`: what index that earns it; `Registry.reconcile_handed`: every field gets it;
* `Sequence.withNodes_reindexed`: the same for the nodes of a sequence, which change in their
  indices alone;
* `Sequence.InSync.keeps_iff`: a field of a sequence in step keeps its index in another node list
  exactly if none of the nodes in front shares it (`Node.Shares`), so that a node stays as it is
  behind nodes that share none of its fields (`Sequence.InSync.withNodes_keeps`).
-/

namespace Sequencer

variable {H : Host}

/-- A field that carries an address carries its index. -/
theorem Declaration.index_of_key? {d : Declaration} {key : OverrideKey} (h : d.key? = some key) :
    d.field.index = some key.index ∧ d.type = key.type := by
  obtain ⟨index, hindex, rfl⟩ := Option.map_eq_some_iff.mp h
  exact ⟨hindex, rfl⟩

/-- The node declares a field with the same address. -/
def Node.Shares {σ : Type} (node : Node H σ) (d : Declaration) : Prop :=
  ∃ own ∈ node.declarations, own.key? = d.key?

instance {σ : Type} (node : Node H σ) (d : Declaration) : Decidable (node.Shares d) :=
  inferInstanceAs (Decidable (∃ own ∈ node.declarations, own.key? = d.key?))

namespace Registry

/-- One of the fields carries the address. -/
def Carried (claims : List Claim) (key : OverrideKey) : Prop :=
  ∃ c ∈ claims, c.declaration.key? = some key

theorem carried_append {as bs : List Claim} {key : OverrideKey} :
    Carried (as ++ bs) key ↔ Carried as key ∨ Carried bs key := by
  simp only [Carried, List.mem_append, or_and_right, exists_or]

@[simp] theorem carried_singleton {c : Claim} {key : OverrideKey} :
    Carried [c] key ↔ c.declaration.key? = some key := by
  simp [Carried]

@[simp] theorem not_carried_nil {key : OverrideKey} : ¬ Carried [] key := by
  simp [Carried]

/-- The field carries the address of an entry, and no field before it does. -/
def Keeps (r : Registry) (before : List Claim) (c : Claim) : Prop :=
  ∃ d ∈ r, c.declaration.key? = some d.key ∧ ¬ Carried before d.key

/-- The index that a field gets behind the fields before it: its own if it keeps it, otherwise one
above all of the registry's. -/
structure Handed (r : Registry) (before : List Claim) (c : Claim) (index : OverrideIndex) :
    Prop where
  /-- A field that keeps its address keeps its index. -/
  own : r.Keeps before c → c.declaration.field.index = some index
  /-- Any other field gets a fresh one. -/
  fresh : ¬ r.Keeps before c → nextIndex r ≤ index.number

/-! ### The pass -/

namespace Pass

/-- The invariant of the pass for the question of precedence: `passed` are the fields taken up so
far. -/
structure Precedes (r : Registry) (passed : List Claim) (p : Pass) : Prop where
  /-- Fresh indices lie above all of the registry's. -/
  next : nextIndex r ≤ p.next
  /-- The address of every entry is still among the candidates'. -/
  entries : ∀ d ∈ r, ∃ k ∈ p.candidates, k.entry.key = d.key
  /-- A candidate has an entry's address, and is claimed exactly if a field passed carries it; or it
  has a fresh index, and the field that got it has claimed it. -/
  candidates : ∀ k ∈ p.candidates,
    ((∃ d ∈ r, k.entry.key = d.key) ∧ (k.claimed = true ↔ Carried passed k.entry.key)) ∨
    (nextIndex r ≤ k.entry.index.number ∧ k.claimed = true)

theorem precedes_start (r : Registry) : (Pass.start r).Precedes r [] where
  next := Nat.le_refl _
  entries := fun d hd => ⟨⟨d, false⟩, List.mem_map_of_mem hd, rfl⟩
  candidates := by
    intro k hk
    obtain ⟨d, hd, rfl⟩ := List.mem_map.mp hk
    exact .inl ⟨⟨d, hd, rfl⟩, by simp⟩

/-- A candidate with an entry's address is claimed exactly if a field passed carries it. -/
theorem Precedes.claimed_iff {r : Registry} {passed : List Claim} {p : Pass}
    (h : p.Precedes r passed) {k : Candidate} (hk : k ∈ p.candidates) {d : Descriptor} (hd : d ∈ r)
    (hkd : k.entry.key = d.key) : k.claimed = true ↔ Carried passed d.key := by
  obtain ⟨-, hiff⟩ | ⟨hfresh, -⟩ := h.candidates k hk
  · rw [hiff, hkd]
  · have hlt := index_lt_nextIndex hd
    rw [← show k.entry.index = d.index from congrArg OverrideKey.index hkd] at hlt
    omega

/-- A field gets a fresh index if no candidate has its address, or only a claimed one. The
invariant is kept. -/
theorem Precedes.addFresh {r : Registry} {passed : List Claim} {p : Pass}
    (h : p.Precedes r passed) {c : Claim}
    (hc : ∀ k ∈ p.candidates, c.declaration.key? = some k.entry.key → k.claimed = true) :
    (p.addFresh c).Precedes r (passed ++ [c]) where
  next := Nat.le_succ_of_le h.next
  entries := by
    intro d hd
    obtain ⟨k, hk, hkd⟩ := h.entries d hd
    exact ⟨k, List.mem_append_left _ hk, hkd⟩
  candidates := by
    intro k hk
    rcases List.mem_append.mp hk with hk | hk
    · refine (h.candidates k hk).imp_left fun ⟨hentry, hiff⟩ => ⟨hentry, ?_⟩
      rw [carried_append, carried_singleton, ← hiff]
      exact ⟨.inl, fun hor => hor.elim id (hc k hk)⟩
    · obtain rfl := List.mem_singleton.mp hk
      exact .inr ⟨h.next, rfl⟩

/-- A field that claims an entry keeps the invariant. -/
theorem Precedes.claim {r : Registry} {passed : List Claim} {p : Pass} (h : p.Precedes r passed)
    (hasc : p.numbers.Pairwise (· < ·)) {c : Claim} {position : Nat} {k : Candidate}
    (hget : p.candidates[position]? = some k) (hk : k.claimed = false)
    (hkey : c.declaration.key? = some k.entry.key) :
    (p.claim position k.entry.index c).Precedes r (passed ++ [c]) := by
  obtain ⟨hlt, -⟩ := List.getElem?_eq_some_iff.mp hget
  have hentry : (Descriptor.ofDeclaration k.entry.index c.node c.declaration).key = k.entry.key :=
    congrArg (OverrideKey.mk _) (Declaration.index_of_key? hkey).2
  -- the indices ascend, so no other candidate has the address that is claimed
  have hother : ∀ {i k'}, p.candidates[i]? = some k' → i ≠ position →
      k'.entry.key ≠ k.entry.key := by
    intro i k' hi hne heq
    have hnumbers : p.numbers[i]? = p.numbers[position]? := by
      simp only [numbers, List.getElem?_map, hi, hget, Option.map_some]
      exact congrArg (fun key : OverrideKey => some key.index.number) heq
    have hilt : i < p.numbers.length := by
      rw [numbers, List.length_map]
      exact (List.getElem?_eq_some_iff.mp hi).1
    exact hne ((List.getElem?_inj hilt (hasc.imp Nat.ne_of_lt)).mp hnumbers)
  refine ⟨h.next, fun d hd => ?_, fun k' hk' => ?_⟩
  · obtain ⟨k', hk', hkd⟩ := h.entries d hd
    obtain ⟨i, hi⟩ := List.mem_iff_getElem?.mp hk'
    by_cases hne : i = position
    · subst hne
      obtain rfl := Option.some.inj (hget.symm.trans hi)
      exact ⟨_, List.mem_set hlt _, hentry.trans hkd⟩
    · refine ⟨k', List.mem_iff_getElem?.mpr ⟨i, ?_⟩, hkd⟩
      rw [Pass.claim, List.getElem?_set_ne (Ne.symm hne)]
      exact hi
  · obtain ⟨i, hi⟩ := List.mem_iff_getElem?.mp hk'
    by_cases hne : i = position
    · subst hne
      rw [Pass.claim, List.getElem?_set_self hlt] at hi
      obtain rfl := Option.some.inj hi
      refine (h.candidates k (List.mem_of_getElem? hget)).imp (fun hold => ?_)
        fun hfresh => absurd hfresh.2 (by simp [hk])
      obtain ⟨⟨d, hd, hkd⟩, -⟩ := hold
      rw [hentry, carried_append, carried_singleton]
      exact ⟨⟨d, hd, hkd⟩, iff_of_true rfl (.inr hkey)⟩
    · rw [Pass.claim, List.getElem?_set_ne (Ne.symm hne)] at hi
      refine (h.candidates k' (List.mem_of_getElem? hi)).imp_left fun hold => ⟨hold.1, ?_⟩
      rw [carried_append, carried_singleton, ← hold.2]
      refine ⟨.inl, fun hor => hor.elim id fun heq => ?_⟩
      exact absurd (Option.some.inj (heq.symm.trans hkey)) (hother hi hne)

/-- Taking up one more field keeps the invariant, and hands the field the index it has earned. -/
theorem Precedes.register {r : Registry} {passed : List Claim} {p : Pass} (h : p.Precedes r passed)
    (hasc : p.numbers.Pairwise (· < ·)) (c : Claim) :
    (p.register c).Precedes r (passed ++ [c]) ∧
    ∃ index, (p.register c).indices = p.indices ++ [index] ∧ r.Handed passed c index := by
  obtain ⟨hnone, heq⟩ | ⟨k, hk, hclaimed, hkey, heq⟩ | ⟨position, k, hget, hk, hkey, heq⟩ :=
    p.register_cases c
  · have hlose : ¬ r.Keeps passed c := by
      rintro ⟨d, hd, hcd, -⟩
      obtain ⟨k, hk, hkd⟩ := h.entries d hd
      exact hnone _ hcd k hk hkd
    rw [heq]
    exact ⟨h.addFresh fun k hk hkey => absurd rfl (hnone _ hkey k hk),
      ⟨p.next⟩, rfl, fun hkeeps => absurd hkeeps hlose, fun _ => h.next⟩
  · have hlose : ¬ r.Keeps passed c := by
      rintro ⟨d, hd, hcd, hfirst⟩
      exact hfirst ((h.claimed_iff hk hd (Option.some.inj (hkey.symm.trans hcd))).mp hclaimed)
    have hfresh : (p.addFresh c).Precedes r (passed ++ [c]) := by
      refine h.addFresh fun k' hk' hkey' => ?_
      obtain ⟨⟨d, hd, hkd⟩, -⟩ | ⟨-, hclaimed'⟩ := h.candidates k' hk'
      · have hkk : k.entry.key = k'.entry.key := Option.some.inj (hkey.symm.trans hkey')
        exact (h.claimed_iff hk' hd hkd).mpr ((h.claimed_iff hk hd (hkk.trans hkd)).mp hclaimed)
      · exact hclaimed'
    rw [heq]
    exact ⟨⟨hfresh.next, hfresh.entries, hfresh.candidates⟩,
      ⟨p.next⟩, rfl, fun hkeeps => absurd hkeeps hlose, fun _ => h.next⟩
  · have hwin : r.Keeps passed c := by
      obtain ⟨⟨d, hd, hkd⟩, hiff⟩ | ⟨-, hclaimed⟩ := h.candidates k (List.mem_of_getElem? hget)
      · rw [hkd] at hiff hkey
        exact ⟨d, hd, hkey, fun hcarried => by simp [hiff.mpr hcarried] at hk⟩
      · simp [hk] at hclaimed
    rw [heq]
    exact ⟨h.claim hasc hget hk hkey, k.entry.index, rfl,
      fun _ => (Declaration.index_of_key? hkey).1, fun hlose => absurd hwin hlose⟩

theorem Precedes.foldl {r : Registry} {passed : List Claim} {p : Pass} (h : p.Precedes r passed)
    (hs : p.Sound passed) (claims : List Claim) :
    (claims.foldl Pass.register p).Precedes r (passed ++ claims) := by
  induction claims generalizing passed p with
  | nil => simpa using h
  | cons c rest ih =>
      rw [List.foldl_cons, List.append_cons]
      exact ih (h.register hs.ascending c).1 (hs.register c)

/-- What has been handed out stays handed out. -/
theorem indices_prefix_foldl (p : Pass) (claims : List Claim) :
    p.indices <+: (claims.foldl Pass.register p).indices := by
  induction claims generalizing p with
  | nil => exact List.prefix_refl _
  | cons c rest ih =>
      refine List.IsPrefix.trans ?_ (ih (p.register c))
      obtain ⟨-, heq⟩ | ⟨k, -, -, -, heq⟩ | ⟨position, k, -, -, -, heq⟩ := p.register_cases c
      all_goals rw [heq]; exact List.prefix_append _ _

end Pass

/-- **Precedence.** Every field is handed the index it has earned behind the fields before it. -/
theorem reconcile_handed {r : Registry} (h : r.Ascending) (before : List Claim) (c : Claim)
    (rest : List Claim) :
    ∃ index, (r.reconcile (before ++ c :: rest)).indices[before.length]? = some index ∧
      r.Handed before c index := by
  have hs : (before.foldl Pass.register (.start r)).Sound before :=
    (Pass.sound_start h).foldl before
  obtain ⟨-, index, hindices, hhanded⟩ :=
    ((Pass.precedes_start r).foldl (Pass.sound_start h) before).register hs.ascending c
  refine ⟨index, ?_, hhanded⟩
  obtain ⟨more, hmore⟩ := Pass.indices_prefix_foldl
    ((before.foldl Pass.register (.start r)).register c) rest
  have hlen : before.length = (before.foldl Pass.register (.start r)).indices.length :=
    hs.length.symm
  simp only [reconcile_eq, Pass.outcome, List.foldl_append, List.foldl_cons]
  rw [← hmore, hindices, List.append_assoc, hlen, List.getElem?_append_right (Nat.le_refl _)]
  simp

end Registry

/-- The node found afterwards is the entry with an index handed to each declared field, each as the
rule says for that field. -/
def Entry.Reindexed (entry : SequenceEntry H) (rule : Declaration → OverrideIndex → Prop)
    (after : Option (SequenceEntry H)) : Prop :=
  ∃ indices, List.Forall₂ rule entry.node.declarations indices ∧
    after = some { entry with node := entry.node.assign indices }

namespace Entry.Reindexed

variable {entry : SequenceEntry H} {rule rule' : Declaration → OverrideIndex → Prop}

/-- A rule may be weakened, for the fields that there are. -/
theorem imp {after : Option (SequenceEntry H)} (h : entry.Reindexed rule after)
    (himp : ∀ d ∈ entry.node.declarations, ∀ index, rule d index → rule' d index) :
    entry.Reindexed rule' after := by
  obtain ⟨indices, hindices, hafter⟩ := h
  have hmem : List.Forall₂ (fun d index => d ∈ entry.node.declarations ∧ rule d index)
      entry.node.declarations indices :=
    (List.forall₂_and_left (p := (· ∈ entry.node.declarations)) _ _).mpr ⟨fun _ hd => hd, hindices⟩
  exact ⟨indices, hmem.imp fun d index hd => himp d hd.1 index hd.2, hafter⟩

/-- An entry whose fields keep their indices is left as it is. -/
theorem eq_some {after : Option (SequenceEntry H)}
    (h : entry.Reindexed (fun d index => d.field.index = some index) after) :
    after = some entry := by
  obtain ⟨indices, hindices, hafter⟩ := h
  have hown : entry.node.declarations.map (·.field.index) = indices.map some := by
    rw [← List.forall₂_eq_eq_eq, List.forall₂_map_left_iff, List.forall₂_map_right_iff]
    exact hindices
  rw [hafter, Node.assign_self _ hown]

/-- The fields of an entry that is left as it is carry indices by the rule. -/
theorem exists_index (h : entry.Reindexed rule (some entry)) {d : Declaration}
    (hd : d ∈ entry.node.declarations) : ∃ index, d.field.index = some index ∧ rule d index := by
  obtain ⟨indices, hindices, hafter⟩ := h
  have hnode : entry.node = entry.node.assign indices :=
    congrArg Entry.node (Option.some.inj hafter)
  have hdeclarations := Node.declarations_assign entry.node hindices.length_eq.symm
  rw [← hnode] at hdeclarations
  obtain ⟨j, hj, rfl⟩ := List.mem_iff_getElem.mp hd
  have hj' : j < indices.length := hindices.length_eq ▸ hj
  refine ⟨indices[j], ?_, (List.forall₂_iff_get.mp hindices).2 j hj hj'⟩
  have hat := congrArg (·[j]?) hdeclarations
  simp only [List.getElem?_zipWith, List.getElem?_eq_getElem hj, List.getElem?_eq_getElem hj']
    at hat
  exact congrArg (·.field.index) (Option.some.inj hat)

end Entry.Reindexed

namespace Sequence

open Registry

/-! ### The nodes of a sequence -/

theorem claims_append (as bs : List (SequenceEntry H)) :
    claims (as ++ bs) = claims as ++ claims bs :=
  List.flatMap_append

theorem assignAll_append (as bs : List (SequenceEntry H)) (indices : List OverrideIndex) :
    assignAll (as ++ bs) indices
      = assignAll as indices ++ assignAll bs (indices.drop (claims as).length) := by
  induction as generalizing indices with
  | nil => simp [claims, assignAll]
  | cons e rest ih =>
      rw [List.cons_append, assignAll, ih, assignAll, claims_cons]
      simp

@[simp] theorem length_assignAll (nodes : List (SequenceEntry H)) (indices : List OverrideIndex) :
    (assignAll nodes indices).length = nodes.length := by
  induction nodes generalizing indices with
  | nil => rfl
  | cons e rest ih => simp [assignAll, ih]

@[simp] theorem length_withNodes (s : Sequence H) (nodes : List (SequenceEntry H)) :
    (s.withNodes nodes).sequence.nodes.length = nodes.length :=
  length_assignAll ..

/-- The fields in front of a node's field with a number: those of the nodes in front, and the node's
own before it. -/
def before (front : List (SequenceEntry H)) (entry : SequenceEntry H) (j : Nat) : List Claim :=
  claims front ++ (entry.node.declarations.take j).map (⟨entry.id, ·⟩)

/-- A reconciled node list has the same nodes in the same places, and each declared field under an
index by any rule that what it has earned complies with. -/
theorem withNodes_reindexed {s : Sequence H} (h : s.registry.Ascending)
    {nodes : List (SequenceEntry H)} {i : Nat} {entry : SequenceEntry H}
    (hi : nodes[i]? = some entry) {rule : Declaration → OverrideIndex → Prop}
    (hrule : ∀ j d index, entry.node.declarations[j]? = some d →
      s.registry.Handed (before (nodes.take i) entry j) ⟨entry.id, d⟩ index → rule d index) :
    entry.Reindexed rule (s.withNodes nodes).sequence.nodes[i]? := by
  obtain ⟨hlt, hget⟩ := List.getElem?_eq_some_iff.mp hi
  have hnodes : nodes = nodes.take i ++ entry :: nodes.drop (i + 1) := by
    rw [← hget, List.getElem_cons_drop, List.take_append_drop]
  have htake : (nodes.take i).length = i := List.length_take_of_le (Nat.le_of_lt hlt)
  have hclaims : claims nodes = claims (nodes.take i)
      ++ (entry.node.declarations.map (⟨entry.id, ·⟩) ++ claims (nodes.drop (i + 1))) := by
    conv_lhs => rw [hnodes, claims_append, claims_cons]
  obtain ⟨-, hlength, -⟩ := reconcile_sound h (claims nodes)
  refine ⟨((s.registry.reconcile (claims nodes)).indices.drop (claims (nodes.take i)).length).take
    entry.node.declarations.length, List.forall₂_iff_get.mpr ⟨?_, fun j hj hj' => ?_⟩, ?_⟩
  · rw [List.length_take, List.length_drop, hlength, hclaims]
    simp
  · have hsplit : claims nodes
        = before (nodes.take i) entry j ++ ⟨entry.id, entry.node.declarations[j]⟩ ::
            ((entry.node.declarations.drop (j + 1)).map (⟨entry.id, ·⟩)
              ++ claims (nodes.drop (i + 1))) := by
      conv_lhs => rw [hclaims, ← List.take_append_drop j entry.node.declarations,
        List.drop_eq_getElem_cons hj]
      simp only [before, List.map_append, List.map_cons, List.append_assoc, List.cons_append]
    have hlen : (before (nodes.take i) entry j).length = (claims (nodes.take i)).length + j := by
      rw [before, List.length_append, List.length_map,
        List.length_take_of_le (Nat.le_of_lt hj)]
    obtain ⟨index, hindex, hhanded⟩ := reconcile_handed h (before (nodes.take i) entry j)
      ⟨entry.id, entry.node.declarations[j]⟩
      ((entry.node.declarations.drop (j + 1)).map (⟨entry.id, ·⟩) ++ claims (nodes.drop (i + 1)))
    rw [← hsplit, hlen] at hindex
    refine hrule j _ _ (List.getElem?_eq_getElem hj) ?_
    have hat : (((s.registry.reconcile (claims nodes)).indices.drop
        (claims (nodes.take i)).length).take entry.node.declarations.length)[j]? = some index := by
      rw [List.getElem?_take_of_lt hj, List.getElem?_drop, hindex]
    obtain rfl := Option.some.inj ((List.getElem?_eq_getElem hj').symm.trans hat)
    exact hhanded
  · simp only [withNodes, reconcile_def]
    generalize (s.registry.reconcile (claims nodes)).indices = indices
    conv_lhs => rw [hnodes, assignAll_append, assignAll]
    rw [List.getElem?_append_right (by simp [htake]), length_assignAll, htake]
    simp

/-! ### Fields that were registered before -/

/-- In step, every declared field carries the address of an entry. -/
theorem InSync.exists_key {s : Sequence H} (h : s.InSync) {entry : SequenceEntry H}
    (hentry : entry ∈ s.nodes) {d : Declaration} (hd : d ∈ entry.node.declarations) :
    ∃ e ∈ s.registry, d.key? = some e.key := by
  obtain ⟨e, he, heq⟩ :=
    List.mem_map.mp (h.describes.mem_iff.mp (List.mem_map_of_mem (mem_claims hentry hd)))
  exact ⟨e, he, Claim.key?_of_descriptor? heq.symm⟩

/-- In step, no two declared fields have the same address. -/
theorem InSync.nodup_keys {s : Sequence H} (h : s.InSync) :
    ((claims s.nodes).map (·.declaration.key?)).Nodup := by
  refine List.Nodup.of_map (Option.map OverrideKey.index) ?_
  have hindices : ((claims s.nodes).map (·.declaration.key?)).map (Option.map OverrideKey.index)
      = ((claims s.nodes).map Claim.descriptor?).map (Option.map Descriptor.index) := by
    simp [Function.comp_def, Declaration.key?, Claim.descriptor?]
  rw [hindices, (h.describes.map _).nodup_iff, List.map_map]
  refine List.Nodup.of_map (Option.map OverrideIndex.number) ?_
  have hnd : (s.registry.map (·.index.number)).Nodup := h.ascending.imp Nat.ne_of_lt
  simpa [Function.comp_def] using hnd.map fun _ _ => Option.some.inj

/-- In step, the addresses of a node's fields differ from each other and from those of all other
fields. -/
theorem InSync.nodup_node {s : Sequence H} (h : s.InSync) {i : Nat} {entry : SequenceEntry H}
    (hi : s.nodes[i]? = some entry) :
    (entry.node.declarations.map (·.key?)).Nodup ∧
    ∀ k other, k ≠ i → s.nodes[k]? = some other →
      ∀ d ∈ entry.node.declarations, ¬ other.node.Shares d := by
  obtain ⟨hlt, hget⟩ := List.getElem?_eq_some_iff.mp hi
  have hnodes : s.nodes = s.nodes.take i ++ entry :: s.nodes.drop (i + 1) := by
    rw [← hget, List.getElem_cons_drop, List.take_append_drop]
  have hnd := h.nodup_keys
  rw [hnodes, claims_append, claims_cons, List.map_append, List.map_append] at hnd
  have hmove := (List.perm_append_comm_assoc _ _ _).nodup_iff.mp hnd
  rw [← List.map_append, ← claims_append, List.map_map] at hmove
  obtain ⟨hown, -, hdisjoint⟩ := List.nodup_append.mp hmove
  refine ⟨hown, fun k other hne hk d hd ⟨own, hown, hshared⟩ => ?_⟩
  have hother : other ∈ s.nodes.take i ++ s.nodes.drop (i + 1) := by
    rw [← List.eraseIdx_eq_take_drop_succ, List.mem_eraseIdx_iff_getElem?]
    exact ⟨k, hne, hk⟩
  exact hdisjoint d.key? (List.mem_map_of_mem hd) own.key? (List.mem_map.mpr
    ⟨⟨other.id, own⟩, mem_claims hother hown, rfl⟩)
    hshared.symm

/-- **Who keeps a field's index.** A field of a sequence in step keeps its index, behind any nodes,
exactly if none of them shares it: among the fields of its own node it is the only one with its
address. -/
theorem InSync.keeps_iff {s : Sequence H} (h : s.InSync) {i : Nat} {entry : SequenceEntry H}
    (hi : s.nodes[i]? = some entry) (front : List (SequenceEntry H)) {j : Nat} {d : Declaration}
    (hd : entry.node.declarations[j]? = some d) :
    s.registry.Keeps (before front entry j) ⟨entry.id, d⟩ ↔ ∀ e ∈ front, ¬ e.node.Shares d := by
  obtain ⟨e, he, hkey⟩ := h.exists_key (List.mem_of_getElem? hi) (List.mem_of_getElem? hd)
  constructor
  · rintro ⟨e', -, hkey', hfirst⟩ node hnode ⟨own, hown, hshared⟩
    exact hfirst ⟨⟨node.id, own⟩, List.mem_append_left _
      (mem_claims hnode hown), hshared.trans hkey'⟩
  · intro hfront
    refine ⟨e, he, hkey, fun ⟨c, hc, hcarried⟩ => ?_⟩
    rcases List.mem_append.mp hc with hc | hc
    · obtain ⟨node, hnode, hc⟩ := List.mem_flatMap.mp hc
      obtain ⟨own, hown, rfl⟩ := List.mem_map.mp hc
      exact hfront node hnode ⟨own, hown, hcarried.trans hkey.symm⟩
    · -- an earlier field of the same node: no two of them have the same address
      obtain ⟨d', hd', rfl⟩ := List.mem_map.mp hc
      obtain ⟨i', hi'⟩ := List.mem_iff_getElem?.mp hd'
      rw [List.getElem?_take] at hi'
      split at hi'
      next hlt =>
        refine absurd ((List.getElem?_inj ?_ (h.nodup_node hi).1).mp ?_) (Nat.ne_of_lt hlt)
        · rw [List.length_map]
          exact (List.getElem?_eq_some_iff.mp hi').1
        · rw [List.getElem?_map, List.getElem?_map, hi', hd]
          exact congrArg some (hcarried.trans hkey.symm)
      next => cases hi'

/-- A node of a sequence in step stays as it is, in another node list, if none of the nodes in front
of it shares a field with it. -/
theorem InSync.withNodes_keeps {s : Sequence H} (h : s.InSync) {i : Nat} {entry : SequenceEntry H}
    (hi : s.nodes[i]? = some entry) {nodes : List (SequenceEntry H)} {i' : Nat}
    (hi' : nodes[i']? = some entry)
    (hfront : ∀ e ∈ nodes.take i', ∀ d ∈ entry.node.declarations, ¬ e.node.Shares d) :
    (s.withNodes nodes).sequence.nodes[i']? = some entry := by
  refine Entry.Reindexed.eq_some
    (withNodes_reindexed h.ascending hi' fun j d index hd hearned => ?_)
  exact hearned.own ((h.keeps_iff hi (nodes.take i') hd).mpr fun e he =>
    hfront e he d (List.mem_of_getElem? hd))

end Sequence

end Sequencer
