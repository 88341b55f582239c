import Mathlib.Data.List.Nodup
import Sequencer.Proofs.Registry.Counting

/-!
# Sequencer.Proofs.Registry.Reconcile

What one reconciliation of a registry leaves, and when it changes nothing.

* `Pass.register_cases` says once what taking up a declared field can do; every invariant of the
  pass is read off it.
* `Pass.Sound` is that invariant: the entries ascend, the next index is above all of them, and the
  claimed entries are those of the fields passed so far. `reconcile_sound` draws the conclusion.
* `reconcile_of_part`: if the fields are described by some of the entries, the others are dropped
  and nothing else happens; `reconcile_of_describes`: a registry that already describes its fields,
  one entry each, is left as it is.
-/

namespace Sequencer

namespace Declaration

/-- The declaration with an index handed to its field. -/
def withIndex (d : Declaration) (index : OverrideIndex) : Declaration :=
  { d with field := d.field.withIndex index }

end Declaration

namespace Descriptor

@[simp] theorem key_index (d : Descriptor) : d.key.index = d.index := rfl

end Descriptor

namespace Registry

/-- A registry's indices go up strictly, whatever the kinds. -/
def Ascending (r : Registry) : Prop :=
  (r.map (·.index.number)).Pairwise (· < ·)

namespace Claim

/-- The entry that describes the field under an index. -/
def descriptor (c : Claim) (index : OverrideIndex) : Descriptor :=
  .ofDeclaration index c.node c.declaration

/-- The entry that describes the field, if it carries an index. -/
def descriptor? (c : Claim) : Option Descriptor :=
  c.declaration.field.index.map c.descriptor

/-- The claim with an index handed to its field. -/
def withIndex (c : Claim) (index : OverrideIndex) : Claim :=
  { c with declaration := c.declaration.withIndex index }

@[simp] theorem descriptor?_withIndex (c : Claim) (index : OverrideIndex) :
    (c.withIndex index).descriptor? = some (c.descriptor index) := rfl

@[simp] theorem descriptor_index (c : Claim) (index : OverrideIndex) :
    (c.descriptor index).index = index := rfl

@[simp] theorem descriptor_key (c : Claim) (index : OverrideIndex) :
    (c.descriptor index).key = ⟨index, c.declaration.type⟩ := rfl

theorem descriptor?_eq_some_iff {c : Claim} {d : Descriptor} :
    c.descriptor? = some d ↔
      c.declaration.field.index = some d.index ∧ c.descriptor d.index = d := by
  constructor
  · intro h
    obtain ⟨index, hindex, rfl⟩ := Option.map_eq_some_iff.mp h
    exact ⟨hindex, rfl⟩
  · rintro ⟨hindex, hd⟩
    simp [descriptor?, hindex, hd]

/-- A claim whose field is described by an entry carries the entry's address. -/
theorem key?_of_descriptor? {c : Claim} {d : Descriptor} (h : c.descriptor? = some d) :
    c.declaration.key? = some d.key := by
  obtain ⟨hindex, hd⟩ := descriptor?_eq_some_iff.mp h
  rw [← hd, descriptor_key]
  simp [Declaration.key?, hindex]

end Claim

/-! ### Fresh indices -/

private theorem le_foldl_max_index (r : Registry) (n : Nat) :
    n ≤ r.foldl (fun n d => max n (d.index.number + 1)) n := by
  induction r generalizing n with
  | nil => exact Nat.le_refl n
  | cons d rest ih => exact Nat.le_trans (Nat.le_max_left _ _) (ih _)

private theorem lt_foldl_max_index {r : Registry} {d : Descriptor} (h : d ∈ r) (n : Nat) :
    d.index.number < r.foldl (fun n d => max n (d.index.number + 1)) n := by
  induction r generalizing n with
  | nil => simp at h
  | cons e rest ih =>
      rcases List.mem_cons.mp h with rfl | h
      · exact Nat.lt_of_lt_of_le (by omega : d.index.number < max n (d.index.number + 1))
          (le_foldl_max_index rest _)
      · exact ih h _

/-- The next index lies above every index in the registry. -/
theorem index_lt_nextIndex {r : Registry} {d : Descriptor} (h : d ∈ r) :
    d.index.number < nextIndex r := by
  rw [nextIndex_eq]
  exact lt_foldl_max_index h 0

/-! ### One declared field -/

namespace Pass

/-- **What taking up a field can do.** It gets a fresh index because its address is not among the
candidates, or because the first candidate with its address is claimed already; or it claims that
candidate. -/
theorem register_cases (p : Pass) (c : Claim) :
    ((∀ key, c.declaration.key? = some key → ∀ k ∈ p.candidates, k.entry.key ≠ key) ∧
      p.register c = p.addFresh c) ∨
    (∃ k ∈ p.candidates, k.claimed = true ∧ c.declaration.key? = some k.entry.key ∧
      p.register c = { p.addFresh c with duplicates := p.duplicates ++ [k.entry.key] }) ∨
    (∃ position k, p.candidates[position]? = some k ∧ k.claimed = false ∧
      c.declaration.key? = some k.entry.key ∧
      p.register c = p.claim position k.entry.index c) := by
  rw [register_eq]
  cases hkey : c.declaration.key? with
  | none => exact .inl ⟨by simp, rfl⟩
  | some key =>
      cases hfind : p.candidates.findIdx? (·.entry.key == key) with
      | none =>
          refine .inl ⟨?_, by simp [hfind]⟩
          rintro _ ⟨⟩ k hk rfl
          simpa using List.findIdx?_eq_none_iff.mp hfind k hk
      | some position =>
          obtain ⟨hlt, hfit, -⟩ := List.findIdx?_eq_some_iff_getElem.mp hfind
          have hget : p.candidates[position]? = some p.candidates[position] :=
            List.getElem?_eq_getElem hlt
          obtain rfl : p.candidates[position].entry.key = key := by simpa using hfit
          cases hclaimed : p.candidates[position].claimed with
          | true =>
              exact .inr (.inl ⟨_, List.getElem_mem hlt, hclaimed, rfl, by
                simp [hfind, hclaimed, hlt]⟩)
          | false =>
              exact .inr (.inr ⟨position, _, hget, hclaimed, rfl, by
                simp [hfind, hclaimed, hlt]⟩)

/-- The indices of the candidates, in order. -/
def numbers (p : Pass) : List Nat := p.candidates.map (·.entry.index.number)

@[simp] theorem kept_addFresh (p : Pass) (c : Claim) :
    (p.addFresh c).kept = p.kept ++ [c.descriptor ⟨p.next⟩] := by
  simp [kept, addFresh_eq, Claim.descriptor]

@[simp] theorem numbers_addFresh (p : Pass) (c : Claim) :
    (p.addFresh c).numbers = p.numbers ++ [p.next] := by
  simp [numbers, addFresh_eq, Descriptor.ofDeclaration]

/-- Claiming an entry keeps its index, so the candidates' indices stay what they were. -/
theorem numbers_claim {p : Pass} {position : Nat} {k : Candidate}
    (h : p.candidates[position]? = some k) (c : Claim) :
    (p.claim position k.entry.index c).numbers = p.numbers := by
  obtain ⟨hlt, hk⟩ := List.getElem?_eq_some_iff.mp h
  subst hk
  simp only [numbers, claim, List.map_set, Descriptor.ofDeclaration]
  refine List.ext_getElem (by simp) fun i _ _ => ?_
  by_cases hi : position = i
  · subst hi; simp
  · simp [hi]

/-- A claimed entry joins the kept ones. -/
theorem kept_claim {p : Pass} {position : Nat} {k : Candidate}
    (h : p.candidates[position]? = some k) (hk : k.claimed = false) (c : Claim) :
    (p.claim position k.entry.index c).kept.Perm (p.kept ++ [c.descriptor k.entry.index]) := by
  obtain ⟨hlt, hget⟩ := List.getElem?_eq_some_iff.mp h
  have hsplit : p.candidates
      = p.candidates.take position ++ k :: p.candidates.drop (position + 1) := by
    rw [← hget, List.getElem_cons_drop, List.take_append_drop]
  have hset : (p.claim position k.entry.index c).candidates
      = p.candidates.take position ++ ⟨c.descriptor k.entry.index, true⟩ ::
          p.candidates.drop (position + 1) :=
    List.set_eq_take_append_cons_drop.trans (if_pos hlt)
  have hkept : p.kept
      = (((p.candidates.take position).filter (·.claimed)).map (·.entry))
        ++ (((p.candidates.drop (position + 1)).filter (·.claimed)).map (·.entry)) := by
    conv_lhs => rw [kept, hsplit]
    simp [hk]
  rw [hkept, kept, hset]
  simp only [List.filter_append, List.filter_cons_of_pos, List.map_append, List.map_cons]
  exact List.perm_middle.trans (List.perm_append_singleton _ _).symm

/-! ### The whole pass -/

/-- The invariant of the pass: `passed` are the fields taken up so far. -/
structure Sound (passed : List Claim) (p : Pass) : Prop where
  /-- The candidates' indices go up strictly. -/
  ascending : p.numbers.Pairwise (· < ·)
  /-- The next index lies above all of them. -/
  below : ∀ n ∈ p.numbers, n < p.next
  /-- Each field passed has an index. -/
  length : p.indices.length = passed.length
  /-- The claimed entries are those of the fields passed, under their indices. -/
  kept : p.kept.Perm (List.zipWith Claim.descriptor passed p.indices)

theorem sound_start {r : Registry} (h : r.Ascending) : (Pass.start r).Sound [] where
  ascending := by simpa [numbers, start_eq, Ascending, Function.comp_def] using h
  below := by
    simp only [numbers, start_eq, List.map_map, List.mem_map]
    rintro _ ⟨d, hd, rfl⟩
    exact index_lt_nextIndex hd
  length := rfl
  kept := by simp [Pass.kept, start_eq]

theorem Sound.addFresh {passed : List Claim} {p : Pass} (h : p.Sound passed) (c : Claim) :
    (p.addFresh c).Sound (passed ++ [c]) where
  ascending := by
    rw [numbers_addFresh, List.pairwise_append]
    refine ⟨h.ascending, List.pairwise_singleton _ _, fun n hn m hm => ?_⟩
    rw [List.mem_singleton.mp hm]
    exact h.below n hn
  below := by
    intro n hn
    rw [numbers_addFresh, List.mem_append, List.mem_singleton] at hn
    rcases hn with hn | rfl
    · exact Nat.lt_succ_of_lt (h.below n hn)
    · exact Nat.lt_succ_self _
  length := by simp [Pass.addFresh_eq, h.length]
  kept := by
    rw [kept_addFresh]
    simp only [Pass.addFresh_eq]
    rw [List.zipWith_append h.length.symm]
    exact h.kept.append_right _

theorem Sound.claim {passed : List Claim} {p : Pass} {position : Nat} {k : Candidate}
    (h : p.Sound passed) (hget : p.candidates[position]? = some k) (hk : k.claimed = false)
    (c : Claim) : (p.claim position k.entry.index c).Sound (passed ++ [c]) where
  ascending := by rw [numbers_claim hget]; exact h.ascending
  below := by rw [numbers_claim hget]; exact h.below
  length := by simp [Pass.claim, h.length]
  kept := by
    refine (kept_claim hget hk c).trans ?_
    simp only [Pass.claim]
    rw [List.zipWith_append h.length.symm]
    exact h.kept.append_right _

/-- Taking up one more field keeps the invariant. -/
theorem Sound.register {passed : List Claim} {p : Pass} (h : p.Sound passed) (c : Claim) :
    (p.register c).Sound (passed ++ [c]) := by
  obtain ⟨-, heq⟩ | ⟨k, -, -, -, heq⟩ | ⟨position, k, hget, hk, -, heq⟩ := p.register_cases c
  · rw [heq]; exact h.addFresh c
  · rw [heq]
    -- the duplicate is noted in a list that the invariant does not look at
    obtain ⟨hasc, hbelow, hlen, hkept⟩ := h.addFresh c
    exact ⟨hasc, hbelow, hlen, hkept⟩
  · rw [heq]; exact h.claim hget hk c

theorem Sound.foldl {passed : List Claim} {p : Pass} (h : p.Sound passed) (claims : List Claim) :
    (claims.foldl Pass.register p).Sound (passed ++ claims) := by
  induction claims generalizing passed p with
  | nil => simpa using h
  | cons c rest ih =>
      rw [List.foldl_cons, List.append_cons]
      exact ih (h.register c)

end Pass

/-- A reconciled registry ascends if the old one did, and its entries are exactly those of the
declared fields under the indices that were handed out. -/
theorem reconcile_sound {r : Registry} (h : r.Ascending) (claims : List Claim) :
    (r.reconcile claims).registry.Ascending ∧
    (r.reconcile claims).indices.length = claims.length ∧
    (r.reconcile claims).registry.Perm
      (List.zipWith Claim.descriptor claims (r.reconcile claims).indices) := by
  have hs : (claims.foldl Pass.register (.start r)).Sound claims :=
    (Pass.sound_start h).foldl claims
  rw [reconcile_eq]
  refine ⟨?_, hs.length, hs.kept⟩
  have hsub : ((claims.foldl Pass.register (.start r)).kept.map (·.index.number)).Sublist
      (claims.foldl Pass.register (.start r)).numbers := by
    rw [Pass.kept, List.map_map]
    exact List.filter_sublist.map _
  exact hs.ascending.sublist hsub

/-! ### A registry that is in order already -/

/-- Entries that ascend are told apart by their indices. -/
theorem Ascending.eq_of_index_eq {r : Registry} (h : r.Ascending) {d e : Descriptor} (hd : d ∈ r)
    (he : e ∈ r) (hindex : d.index = e.index) : d = e := by
  exact List.inj_on_of_nodup_map (List.Pairwise.imp Nat.ne_of_lt h) hd he (by rw [hindex])

theorem Ascending.nodup {r : Registry} (h : r.Ascending) : r.Nodup :=
  .of_map _ (List.Pairwise.imp Nat.ne_of_lt h)

/-- The pass over a registry in order, after the fields that the entries `passed` describe. -/
def Pass.settled (r : Registry) (passed : List Descriptor) : Pass where
  candidates := r.map fun d => ⟨d, decide (d ∈ passed)⟩
  next := nextIndex r
  indices := passed.map (·.index)

/-- A field that an unclaimed entry describes claims it, and the entry stays as it is. -/
theorem Pass.register_settled {r : Registry} (h : r.Ascending) {passed : List Descriptor}
    {d : Descriptor} (hd : d ∈ r) (hnew : d ∉ passed) {c : Claim} (hc : c.descriptor? = some d) :
    (settled r passed).register c = settled r (passed ++ [d]) := by
  have hkey := Claim.key?_of_descriptor? hc
  have hentry := (Claim.descriptor?_eq_some_iff.mp hc).2
  -- among the candidates only `d` has the address that the field carries
  have honly : ∀ k ∈ (settled r passed).candidates, c.declaration.key? = some k.entry.key →
      k = ⟨d, false⟩ := by
    intro k hk hk'
    obtain ⟨e, he, rfl⟩ := List.mem_map.mp hk
    obtain rfl : d = e := by
      refine h.eq_of_index_eq hd he ?_
      simpa using congrArg OverrideKey.index (Option.some.inj (hkey.symm.trans hk'))
    simp [hnew]
  obtain ⟨hnone, -⟩ | ⟨k, hk, hclaimed, hk', -⟩ | ⟨position, k, hget, -, hk', heq⟩ :=
    (settled r passed).register_cases c
  · exact absurd rfl (hnone _ hkey _ (List.mem_map_of_mem hd))
  · rw [honly k hk hk'] at hclaimed
    exact absurd hclaimed (by simp)
  · obtain rfl := honly k (List.mem_of_getElem? hget) hk'
    rw [heq]
    obtain ⟨hlt, hat⟩ : ∃ hlt : position < r.length, r[position] = d := by
      simp only [settled, List.getElem?_map, Option.map_eq_some_iff] at hget
      obtain ⟨e, he, hed⟩ := hget
      obtain ⟨hlt, rfl⟩ := List.getElem?_eq_some_iff.mp he
      exact ⟨hlt, congrArg Candidate.entry hed⟩
    have hcand : (r.map fun e => (⟨e, decide (e ∈ passed)⟩ : Candidate)).set position ⟨d, true⟩
        = r.map fun e => ⟨e, decide (e ∈ passed ++ [d])⟩ := by
      refine List.ext_getElem (by simp) fun i hi _ => ?_
      by_cases hpos : position = i
      · subst hpos
        simp [hat]
      · have hir : i < r.length := by simpa using hi
        have hne : r[i] ≠ d := fun hd' =>
          hpos (h.nodup.getElem_inj_iff.mp (hat.trans hd'.symm))
        simp [hpos, hne]
    simp only [Pass.claim, settled, ← hcand, List.map_append, List.map_cons, List.map_nil]
    rw [show Descriptor.ofDeclaration d.index c.node c.declaration = d from hentry]

theorem Pass.foldl_settled {r : Registry} (h : r.Ascending) {passed : List Descriptor}
    {claims : List Claim} {entries : List Descriptor}
    (hclaims : claims.map Claim.descriptor? = entries.map some) (hmem : ∀ d ∈ entries, d ∈ r)
    (hnd : (passed ++ entries).Nodup) :
    claims.foldl Pass.register (settled r passed) = settled r (passed ++ entries) := by
  induction claims generalizing passed entries with
  | nil =>
      obtain rfl : entries = [] := by simpa using hclaims.symm
      simp
  | cons c rest ih =>
      obtain ⟨d, entries, rfl⟩ : ∃ d tail, entries = d :: tail := by
        cases entries with
        | nil => simp at hclaims
        | cons d tail => exact ⟨d, tail, rfl⟩
      obtain ⟨hc, hrest⟩ := List.cons.inj hclaims
      have hnew : d ∉ passed := fun hd =>
        (List.disjoint_of_nodup_append hnd) hd List.mem_cons_self
      rw [List.foldl_cons, register_settled h (hmem d List.mem_cons_self) hnew hc,
        ih hrest (fun e he => hmem e (List.mem_cons_of_mem _ he)) (by simpa using hnd)]
      simp

/-- If the declared fields are described by some of the entries, each under the index that its field
carries, a reconciliation drops the other entries and does nothing else. -/
theorem reconcile_of_part {r : Registry} (h : r.Ascending) {claims : List Claim}
    {entries : List Descriptor} (hclaims : claims.map Claim.descriptor? = entries.map some)
    (hmem : ∀ d ∈ entries, d ∈ r) (hnd : entries.Nodup) :
    r.reconcile claims
      = ⟨r.filter (· ∈ entries), entries.map (·.index), [],
          { removed := r.length - (r.filter (· ∈ entries)).length }⟩ := by
  have hpass : claims.foldl Pass.register (.start r) = Pass.settled r entries := by
    have hstart : Pass.start r = Pass.settled r [] := by simp [Pass.start_eq, Pass.settled]
    rw [hstart, Pass.foldl_settled h hclaims hmem (by simpa using hnd), List.nil_append]
  rw [reconcile_eq, hpass]
  simp [Pass.outcome, Pass.kept, Pass.settled, List.filter_map, Function.comp_def]

/-- **Idempotence.** If the entries are exactly those of the declared fields, each under the index
that its field carries, a reconciliation changes nothing and has nothing to report. -/
theorem reconcile_of_describes {r : Registry} (h : r.Ascending) {claims : List Claim}
    {entries : List Descriptor} (hclaims : claims.map Claim.descriptor? = entries.map some)
    (hperm : entries.Perm r) :
    r.reconcile claims = ⟨r, entries.map (·.index), [], {}⟩ := by
  have hall : r.filter (· ∈ entries) = r :=
    List.filter_eq_self.mpr fun d hd => by simpa using hperm.mem_iff.mpr hd
  rw [reconcile_of_part h hclaims (fun d hd => hperm.mem_iff.mp hd) (hperm.symm.nodup h.nodup), hall,
    Nat.sub_self]

end Registry

end Sequencer
