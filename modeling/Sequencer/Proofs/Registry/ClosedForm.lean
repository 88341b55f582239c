import Mathlib.Data.List.Nodup
import Sequencer.Proofs.Registry.Precedence

/-!
# Sequencer.Proofs.Registry.ClosedForm

What a reconciliation comes to, said without its pass, for any registry whose addresses differ.

* `Registry.fresh`: the fields that keep no entry, in order; they get the indices from
  `Registry.ceiling` on, and `Registry.freshEntries` are their entries;
* `Registry.refreshed`: the old entries that a field keeps, in their old order;
* `Registry.doubled`: the fields whose address was taken before (`Registry.Taken`);
* `Pass.Closed`: the pass over the fields, at any point, in these terms;
* `Sequence.reconcile_closed`: the whole reconciliation of a sequence.
-/

namespace Sequencer

namespace Registry

/-! ### Fields behind other fields -/

/-- Those of the fields in a list that fulfil a condition behind the fields before them. -/
def Claim.those (P : List Claim → Claim → Prop) [∀ before c, Decidable (P before c)] :
    List Claim → List Claim → List Claim
  | _, [] => []
  | before, c :: rest =>
    if P before c then c :: those P (before ++ [c]) rest else those P (before ++ [c]) rest

theorem Claim.those_append {P : List Claim → Claim → Prop} [∀ before c, Decidable (P before c)]
    (before as bs : List Claim) :
    those P before (as ++ bs) = those P before as ++ those P (before ++ as) bs := by
  induction as generalizing before with
  | nil => simp [those]
  | cons c rest ih =>
      rw [List.cons_append, those, those, ih, List.append_assoc, List.singleton_append]
      split <;> rfl

instance (claims : List Claim) (key : OverrideKey) : Decidable (Carried claims key) :=
  inferInstanceAs (Decidable (∃ c ∈ claims, c.declaration.key? = some key))

instance (r : Registry) (before : List Claim) (c : Claim) : Decidable (r.Keeps before c) :=
  inferInstanceAs (Decidable (∃ d ∈ r, c.declaration.key? = some d.key ∧ ¬ Carried before d.key))

/-! ### The closed form -/

/-- Zero for a registry without entries, otherwise one past its highest index. -/
def ceiling (r : Registry) : Nat := (r.map (·.index.number + 1)).max?.getD 0

/-- The fields that keep no entry: they carry no index, or none of the registry's addresses, or one
that a field before them carries. -/
def fresh (r : Registry) (claims : List Claim) : List Claim :=
  Claim.those (fun before c => ¬ r.Keeps before c) [] claims

/-- The entries of these fields, numbered from the ceiling on. -/
def freshEntries (r : Registry) (claims : List Claim) : Registry :=
  ((r.fresh claims).zipIdx r.ceiling).map fun (c, number) => c.descriptor ⟨number⟩

/-- The old entries whose address a field carries, brought up to date with the first such field. -/
def refreshed (r : Registry) (claims : List Claim) : Registry :=
  r.filterMap fun d =>
    (claims.find? (·.declaration.key? == some d.key)).map (·.descriptor d.index)

/-- The address is an entry's that one of the fields has claimed, or one that was handed out to one
of them. -/
def Taken (r : Registry) (before : List Claim) (key : OverrideKey) : Prop :=
  (∃ d ∈ r, d.key = key ∧ Carried before key) ∨ ∃ d ∈ r.freshEntries before, d.key = key

instance (r : Registry) (before : List Claim) (key : OverrideKey) :
    Decidable (r.Taken before key) :=
  inferInstanceAs (Decidable (_ ∨ _))

/-- The fields that carry an address which was taken before. -/
def doubled (r : Registry) (claims : List Claim) : List Claim :=
  Claim.those (fun before c => ∃ key ∈ c.declaration.key?, r.Taken before key) [] claims

/-- The next index is the ceiling. -/
theorem nextIndex_eq_ceiling (r : Registry) : nextIndex r = r.ceiling := by
  have hfold : nextIndex r = (r.map (·.index.number + 1)).foldl max 0 := by
    rw [nextIndex_eq, List.foldl_map]
  rw [hfold, ceiling]
  cases r with
  | nil => rfl
  | cons d rest =>
      simp only [List.map_cons, List.foldl_cons, List.max?_cons', Option.getD_some, Nat.zero_max]

section

variable {r : Registry} {passed : List Claim} {c : Claim}

theorem fresh_snoc (r : Registry) (passed : List Claim) (c : Claim) :
    r.fresh (passed ++ [c]) = r.fresh passed ++ if r.Keeps passed c then [] else [c] := by
  rw [fresh, Claim.those_append]
  simp only [Claim.those, List.nil_append, fresh]
  split <;> simp_all

theorem doubled_snoc (r : Registry) (passed : List Claim) (c : Claim) :
    r.doubled (passed ++ [c]) = r.doubled passed ++
      if ∃ key ∈ c.declaration.key?, r.Taken passed key then [c] else [] := by
  rw [doubled, Claim.those_append]
  simp only [Claim.those, List.nil_append, doubled]

theorem freshEntries_of_keeps (h : r.Keeps passed c) :
    r.freshEntries (passed ++ [c]) = r.freshEntries passed := by
  simp [freshEntries, fresh_snoc, h]

theorem freshEntries_of_not_keeps (h : ¬ r.Keeps passed c) :
    r.freshEntries (passed ++ [c])
      = r.freshEntries passed ++ [c.descriptor ⟨r.ceiling + (r.fresh passed).length⟩] := by
  simp [freshEntries, fresh_snoc, h, List.zipIdx_append]

/-- Handed out indices lie above all of the registry's. -/
theorem ceiling_le_of_mem {d : Descriptor} (h : d ∈ r.freshEntries passed) :
    r.ceiling ≤ d.index.number := by
  obtain ⟨⟨c, number⟩, hmem, rfl⟩ := List.mem_map.mp h
  exact List.le_snd_of_mem_zipIdx hmem

theorem key_ne_of_mem {d e : Descriptor} (hd : d ∈ r) (he : e ∈ r.freshEntries passed) :
    d.key ≠ e.key := by
  intro heq
  have hlt := index_lt_nextIndex hd
  have hle := ceiling_le_of_mem he
  have hindex : d.index = e.index := congrArg OverrideKey.index heq
  rw [nextIndex_eq_ceiling, hindex] at hlt
  omega

/-- A field keeps no entry whose address is taken. -/
theorem not_keeps_of_taken {key : OverrideKey} (hkey : c.declaration.key? = some key)
    (h : r.Taken passed key) : ¬ r.Keeps passed c := by
  rintro ⟨d, hd, hcd, hfirst⟩
  obtain rfl : key = d.key := Option.some.inj (hkey.symm.trans hcd)
  rcases h with ⟨-, -, -, hcarried⟩ | ⟨e, he, heq⟩
  · exact hfirst hcarried
  · exact key_ne_of_mem hd he heq.symm

/-- What has become of an old entry behind some fields. -/
def candidate (passed : List Claim) (d : Descriptor) : Candidate :=
  match passed.find? (·.declaration.key? == some d.key) with
  | some c => ⟨c.descriptor d.index, true⟩
  | none => ⟨d, false⟩

theorem candidate_cases (passed : List Claim) (d : Descriptor) :
    (∃ c ∈ passed, c.declaration.key? = some d.key ∧
      passed.find? (·.declaration.key? == some d.key) = some c ∧
      candidate passed d = ⟨c.descriptor d.index, true⟩) ∨
    (¬ Carried passed d.key ∧ passed.find? (·.declaration.key? == some d.key) = none ∧
      candidate passed d = ⟨d, false⟩) := by
  cases hfind : passed.find? (·.declaration.key? == some d.key) with
  | some c =>
      have hkey := List.find?_some hfind
      exact .inl ⟨c, List.mem_of_find?_eq_some hfind, by simpa using hkey, rfl, by
        simp [candidate, hfind]⟩
  | none =>
      refine .inr ⟨?_, rfl, by simp [candidate, hfind]⟩
      rintro ⟨c, hc, hkey⟩
      exact absurd (List.find?_eq_none.mp hfind c hc) (by simp [hkey])

/-- An old entry keeps its address. -/
@[simp] theorem candidate_key (passed : List Claim) (d : Descriptor) :
    (candidate passed d).entry.key = d.key := by
  obtain ⟨c, -, hkey, -, heq⟩ | ⟨-, -, heq⟩ := candidate_cases passed d
  · rw [heq, Claim.descriptor_key, (Declaration.index_of_key? hkey).2]
    rfl
  · rw [heq]

/-- It is claimed if a field carries its address. -/
theorem candidate_claimed (passed : List Claim) (d : Descriptor) :
    (candidate passed d).claimed = true ↔ Carried passed d.key := by
  obtain ⟨c, hc, hkey, -, heq⟩ | ⟨hnot, -, heq⟩ := candidate_cases passed d
  · rw [heq]
    exact iff_of_true rfl ⟨c, hc, hkey⟩
  · rw [heq]
    exact iff_of_false (by simp) hnot

/-- A field that does not carry its address, or only behind another one, does nothing to it. -/
theorem candidate_snoc {d : Descriptor}
    (h : c.declaration.key? = some d.key → Carried passed d.key) :
    candidate (passed ++ [c]) d = candidate passed d := by
  obtain ⟨c', -, -, hfind, -⟩ | ⟨hnot, hfind, -⟩ := candidate_cases passed d
  · simp [candidate, List.find?_append, hfind]
  · have hc : ¬ c.declaration.key? = some d.key := fun hkey => hnot (h hkey)
    simp [candidate, List.find?_append, hfind, hc]

end

/-! ### The pass -/

/-- The index that a field has behind the fields before it: its own if it keeps an entry, otherwise
the next one that was not handed out. -/
structure Settles (r : Registry) (before : List Claim) (c : Claim) (index : OverrideIndex) :
    Prop where
  /-- The field keeps its index. -/
  own : r.Keeps before c → c.declaration.field.index = some index
  /-- The field is numbered. -/
  fresh : ¬ r.Keeps before c → index = ⟨r.ceiling + (r.fresh before).length⟩

namespace Pass

/-- The pass in closed form: `passed` are the fields taken up so far. -/
structure Closed (r : Registry) (passed : List Claim) (p : Pass) : Prop where
  /-- The old entries in their old order, and behind them the fresh ones. -/
  candidates : p.candidates
    = r.map (candidate passed) ++ (r.freshEntries passed).map (⟨·, true⟩)
  /-- The next index follows those that were handed out. -/
  next : p.next = r.ceiling + (r.fresh passed).length
  /-- The addresses that were taken. -/
  duplicates : p.duplicates.length = (r.doubled passed).length
  /-- Each field passed has an index. -/
  length : p.indices.length = passed.length
  /-- Each field passed has its index. -/
  indices : ∀ before c rest, passed = before ++ c :: rest →
    ∃ index, p.indices[before.length]? = some index ∧ r.Settles before c index

variable {r : Registry} {passed : List Claim} {p : Pass} {c : Claim}

theorem closed_start (r : Registry) : (Pass.start r).Closed r [] where
  candidates := by
    simp [start_eq, freshEntries, fresh, Claim.those, candidate]
  next := by simp [start_eq, nextIndex_eq_ceiling, fresh, Claim.those]
  duplicates := rfl
  length := rfl
  indices := by simp

/-- One more field, and its index. -/
theorem Closed.indices_snoc (h : p.Closed r passed) {index : OverrideIndex}
    (hindex : r.Settles passed c index) (before : List Claim) (c' : Claim) (rest : List Claim)
    (heq : passed ++ [c] = before ++ c' :: rest) :
    ∃ index', (p.indices ++ [index])[before.length]? = some index' ∧
      r.Settles before c' index' := by
  rcases List.eq_nil_or_concat rest with rfl | ⟨rest, last, rfl⟩
  · obtain ⟨rfl, hc⟩ := List.append_inj' heq rfl
    obtain rfl : c = c' := by simpa using hc
    exact ⟨index, by simp [← h.length], hindex⟩
  · have hsplit : passed ++ [c] = (before ++ c' :: rest) ++ [last] := by simpa using heq
    obtain ⟨hpassed, -⟩ := List.append_inj' hsplit rfl
    obtain ⟨index', hget, hsettles⟩ := h.indices before c' rest hpassed
    refine ⟨index', ?_, hsettles⟩
    rw [List.getElem?_append_left (List.getElem?_eq_some_iff.mp hget).1, hget]

/-- A field that keeps no entry gets the next index. -/
theorem Closed.addFresh (h : p.Closed r passed) (hlose : ¬ r.Keeps passed c)
    {duplicates : List OverrideKey}
    (hdup : duplicates.length = (r.doubled (passed ++ [c])).length) :
    ({ p.addFresh c with duplicates } : Pass).Closed r (passed ++ [c]) where
  candidates := by
    have hold : r.map (candidate (passed ++ [c])) = r.map (candidate passed) :=
      List.map_congr_left fun d hd => candidate_snoc fun hkey =>
        Classical.byContradiction fun hfirst => hlose ⟨d, hd, hkey, hfirst⟩
    rw [hold, freshEntries_of_not_keeps hlose]
    simp [Pass.addFresh_eq, h.candidates, h.next, Claim.descriptor]
  next := by simp [Pass.addFresh_eq, h.next, fresh_snoc, hlose, Nat.add_assoc]
  duplicates := hdup
  length := by simp [Pass.addFresh_eq, h.length]
  indices := by
    refine h.indices_snoc ⟨fun hkeeps => absurd hkeeps hlose, fun _ => ?_⟩
    rw [h.next]

/-- The candidates with one of the old entries claimed. -/
theorem map_candidate_set (hr : (r.map Descriptor.key).Nodup) {position : Nat} {d : Descriptor}
    (hget : r[position]? = some d) (hkey : c.declaration.key? = some d.key)
    (hfirst : ¬ Carried passed d.key) :
    (r.map (candidate passed)).set position ⟨c.descriptor d.index, true⟩
      = r.map (candidate (passed ++ [c])) := by
  refine List.ext_getElem? fun i => ?_
  by_cases hi : position = i
  · subst hi
    obtain ⟨c', hc', hkey', -, -⟩ | ⟨-, hfind, -⟩ := candidate_cases passed d
    · exact absurd ⟨c', hc', hkey'⟩ hfirst
    · have hlt := (List.getElem?_eq_some_iff.mp hget).1
      rw [List.getElem?_set_self (by simpa using hlt), List.getElem?_map, hget]
      simp [candidate, List.find?_append, hfind, hkey]
  · rw [List.getElem?_set_ne hi, List.getElem?_map, List.getElem?_map]
    cases hother : r[i]? with
    | none => rfl
    | some e =>
        refine congrArg some (candidate_snoc fun hcarries => absurd ?_ hi).symm
        have hlt := (List.getElem?_eq_some_iff.mp hget).1
        refine (List.getElem?_inj (by simpa using hlt) hr).mp ?_
        rw [List.getElem?_map, List.getElem?_map, hget, hother]
        exact congrArg some (Option.some.inj (hkey.symm.trans hcarries))

/-- A field that keeps an entry claims it. -/
theorem Closed.claim (hr : (r.map Descriptor.key).Nodup) (h : p.Closed r passed) {position : Nat}
    {d : Descriptor} (hget : r[position]? = some d) (hkey : c.declaration.key? = some d.key)
    (hfirst : ¬ Carried passed d.key) :
    (p.claim position d.index c).Closed r (passed ++ [c]) where
  candidates := by
    have hkeeps : r.Keeps passed c := ⟨d, List.mem_of_getElem? hget, hkey, hfirst⟩
    have hlt := (List.getElem?_eq_some_iff.mp hget).1
    rw [freshEntries_of_keeps hkeeps, ← map_candidate_set hr hget hkey hfirst]
    rw [← List.set_append_left _ _ (by simpa using hlt), ← h.candidates]
    rfl
  next := by
    have hkeeps : r.Keeps passed c := ⟨d, List.mem_of_getElem? hget, hkey, hfirst⟩
    simp [Pass.claim, h.next, fresh_snoc, hkeeps]
  duplicates := by
    have hkeeps : r.Keeps passed c := ⟨d, List.mem_of_getElem? hget, hkey, hfirst⟩
    have hfree : ¬ ∃ key ∈ c.declaration.key?, r.Taken passed key := by
      rintro ⟨key, hkey', htaken⟩
      exact not_keeps_of_taken hkey' htaken hkeeps
    rw [doubled_snoc, if_neg hfree, List.append_nil]
    exact h.duplicates
  length := by simp [Pass.claim, h.length]
  indices := by
    have hkeeps : r.Keeps passed c := ⟨d, List.mem_of_getElem? hget, hkey, hfirst⟩
    exact h.indices_snoc
      ⟨fun _ => (Declaration.index_of_key? hkey).1, fun hlose => absurd hkeeps hlose⟩

/-- Taking up one more field keeps the closed form. -/
theorem Closed.register (hr : (r.map Descriptor.key).Nodup) (h : p.Closed r passed) (c : Claim) :
    (p.register c).Closed r (passed ++ [c]) := by
  have hold : ∀ d ∈ r, candidate passed d ∈ p.candidates := fun d hd => by
    rw [h.candidates]
    exact List.mem_append_left _ (List.mem_map_of_mem hd)
  have hnew : ∀ d ∈ r.freshEntries passed, (⟨d, true⟩ : Candidate) ∈ p.candidates := fun d hd => by
    rw [h.candidates]
    exact List.mem_append_right _ (List.mem_map.mpr ⟨d, hd, rfl⟩)
  obtain ⟨hnone, heq⟩ | ⟨k, hk, hclaimed, hkey, heq⟩ | ⟨position, k, hget, hk, hkey, heq⟩ :=
    p.register_cases c
  · have hlose : ¬ r.Keeps passed c := by
      rintro ⟨d, hd, hcd, -⟩
      exact hnone _ hcd _ (hold d hd) (candidate_key passed d)
    have hfree : ¬ ∃ key ∈ c.declaration.key?, r.Taken passed key := by
      rintro ⟨key, hkey, ⟨d, hd, rfl, -⟩ | ⟨d, hd, rfl⟩⟩
      · exact hnone _ hkey _ (hold d hd) (candidate_key passed d)
      · exact hnone _ hkey _ (hnew d hd) rfl
    rw [heq]
    exact h.addFresh hlose (by rw [doubled_snoc, if_neg hfree, List.append_nil]; exact h.duplicates)
  · have htaken : r.Taken passed k.entry.key := by
      rw [h.candidates] at hk
      rcases List.mem_append.mp hk with hk | hk
      · obtain ⟨d, hd, rfl⟩ := List.mem_map.mp hk
        rw [candidate_key]
        exact .inl ⟨d, hd, rfl, (candidate_claimed passed d).mp hclaimed⟩
      · obtain ⟨d, hd, rfl⟩ := List.mem_map.mp hk
        exact .inr ⟨d, hd, rfl⟩
    rw [heq]
    refine h.addFresh (not_keeps_of_taken hkey htaken) ?_
    rw [doubled_snoc, if_pos ⟨_, hkey, htaken⟩, List.length_append, List.length_append,
      h.duplicates]
    rfl
  · -- an unclaimed candidate is an old entry
    rw [h.candidates] at hget
    have hlt : position < r.length := by
      refine Classical.byContradiction fun hge => ?_
      rw [List.getElem?_append_right (by simpa using hge)] at hget
      obtain ⟨d, -, rfl⟩ := List.mem_map.mp (List.mem_of_getElem? hget)
      simp at hk
    rw [List.getElem?_append_left (by simpa using hlt), List.getElem?_map] at hget
    obtain ⟨d, hd, rfl⟩ := Option.map_eq_some_iff.mp hget
    obtain ⟨_, _, _, _, hcand⟩ | ⟨hfirst, -, hcand⟩ := candidate_cases passed d
    · simp [hcand] at hk
    · rw [heq]
      rw [hcand] at hkey ⊢
      exact h.claim hr hd hkey hfirst

theorem Closed.foldl (hr : (r.map Descriptor.key).Nodup) (h : p.Closed r passed)
    (claims : List Claim) : (claims.foldl Pass.register p).Closed r (passed ++ claims) := by
  induction claims generalizing passed p with
  | nil => simpa using h
  | cons c rest ih =>
      rw [List.foldl_cons, List.append_cons]
      exact ih (h.register hr c)

end Pass

/-! ### The whole reconciliation -/

/-- The claimed candidates among the old entries. -/
theorem filter_candidate (r : Registry) (claims : List Claim) :
    ((r.map (candidate claims)).filter (·.claimed)).map (·.entry) = r.refreshed claims := by
  induction r with
  | nil => rfl
  | cons d rest ih =>
      rw [List.map_cons, List.filter_cons, refreshed, List.filterMap_cons]
      obtain ⟨c, -, -, hfind, heq⟩ | ⟨-, hfind, heq⟩ := candidate_cases claims d
      · simp only [heq, hfind, Option.map_some, if_true, List.map_cons, ih]
        rfl
      · simp only [heq, hfind, Option.map_none, ih, Bool.false_eq_true, if_false]
        rfl

/-- As many old entries are left out as no field carries the address of. -/
theorem length_refreshed (r : Registry) (claims : List Claim) :
    (r.refreshed claims).length + (r.filter fun d => ¬ Carried claims d.key).length = r.length := by
  induction r with
  | nil => rfl
  | cons d rest ih =>
      rw [refreshed] at ih
      rw [refreshed, List.filterMap_cons, List.filter_cons]
      obtain ⟨c, hc, hkey, hfind, -⟩ | ⟨hnot, hfind, -⟩ := candidate_cases claims d
      · have hcarried : Carried claims d.key := ⟨c, hc, hkey⟩
        simp only [hfind, Option.map_some, hcarried, not_true, decide_false, Bool.false_eq_true,
          if_false, List.length_cons]
        omega
      · simp only [hfind, Option.map_none, hnot, not_false_iff, decide_true, if_true,
          List.length_cons]
        omega

/-- **A reconciliation in closed form**, of a registry whose addresses differ. -/
theorem reconcile_eq_closed {r : Registry} (hr : (r.map Descriptor.key).Nodup)
    (claims : List Claim) :
    (r.reconcile claims).registry = r.refreshed claims ++ r.freshEntries claims ∧
    (r.reconcile claims).report =
      { added := (r.fresh claims).length
        removed := (r.filter fun d => ¬ Carried claims d.key).length
        reindexed := (r.doubled claims).length } ∧
    (r.reconcile claims).indices.length = claims.length ∧
    ∀ before c rest, claims = before ++ c :: rest →
      ∃ index, (r.reconcile claims).indices[before.length]? = some index ∧
        r.Settles before c index := by
  have h : (claims.foldl Pass.register (.start r)).Closed r claims :=
    (Pass.closed_start r).foldl hr claims
  rw [reconcile_eq]
  have hkept : (claims.foldl Pass.register (.start r)).kept
      = r.refreshed claims ++ r.freshEntries claims := by
    simp only [Pass.kept, h.candidates, List.filter_append, List.map_append, filter_candidate]
    simp [List.filter_map, Function.comp_def]
  have hlength := length_refreshed r claims
  have hfresh : (r.freshEntries claims).length = (r.fresh claims).length := by
    simp [freshEntries]
  refine ⟨hkept, ?_, h.length, h.indices⟩
  have hremoved : (claims.foldl Pass.register (.start r)).candidates.length
      - (claims.foldl Pass.register (.start r)).kept.length
      = (r.filter fun d => ¬ Carried claims d.key).length := by
    rw [hkept, h.candidates]
    simp only [List.length_append, List.length_map]
    omega
  have hadded : (claims.foldl Pass.register (.start r)).candidates.length - r.length
      = (r.fresh claims).length := by
    rw [h.candidates]
    simp [hfresh]
  rw [← hremoved, ← hadded, ← h.duplicates]
  rfl

end Registry

namespace Sequence

open Registry

variable {H : Host}

/-- **Reconciliation in closed form.** For a registry whose addresses differ, and nodes whose fields
carry any indices: the first field that carries an entry's address keeps its index, and the others
are numbered from the ceiling on, in order. Nothing else about the nodes changes. The registry
afterwards are the old entries that a field keeps, in their old order and brought up to date, and
behind them the entries of the numbered fields. The report counts the numbered fields, the entries
that no field keeps, and the fields whose address was claimed or handed out before. -/
theorem reconcile_closed {s : Sequence H} (hkeys : (s.registry.map Descriptor.key).Nodup) :
    let r := s.registry
    let fields := claims s.nodes
    ∃ indices : List OverrideIndex,
      s.reconcile.sequence =
        { s with
          nodes := assignAll s.nodes indices
          registry := r.refreshed fields ++ r.freshEntries fields } ∧
      claims s.reconcile.sequence.nodes = List.zipWith Claim.withIndex fields indices ∧
      indices.length = fields.length ∧
      (∀ before c rest, fields = before ++ c :: rest →
        ∃ index, indices[before.length]? = some index ∧ r.Settles before c index) ∧
      s.reconcile.report =
        { added := (r.fresh fields).length
          removed := (r.filter fun d => ¬ Carried fields d.key).length
          reindexed := (r.doubled fields).length } := by
  intro r fields
  obtain ⟨hregistry, hreport, hlength, hindices⟩ := reconcile_eq_closed hkeys fields
  refine ⟨(r.reconcile fields).indices, ?_, claims_assignAll s.nodes hlength, hlength, hindices,
    hreport⟩
  rw [← hregistry]
  rfl

/-- A revised script: it has a new line, two lines under the index of an old one, a line under an
index that the new one gets, and a number under the index of a text. -/
def revival : Sequence Host.none where
  id := ⟨.ofNat 1⟩
  name := "revival"
  nodes :=
    [.new ⟨.ofNat 1⟩ (.log (.new "Enter") .info), .new ⟨.ofNat 2⟩ (.log ⟨some ⟨1⟩, "Alas"⟩ .info),
      .new ⟨.ofNat 3⟩ (.log ⟨some ⟨1⟩, "Alack"⟩ .info),
      .new ⟨.ofNat 4⟩ (.log ⟨some ⟨5⟩, "Exit"⟩ .info), .new ⟨.ofNat 5⟩ (.skip ⟨some ⟨4⟩, 0⟩)]
  registry :=
    [⟨⟨4⟩, .string, "Message", ⟨.ofNat 9⟩, .string "Cut"⟩,
      ⟨⟨1⟩, .string, "Message", ⟨.ofNat 2⟩, .string "Alas, poor"⟩]

/-- Of the old lines one is kept and one is dropped. The other four fields are numbered from five
on; two of them carry an index that is taken. -/
theorem reconcile_closed_revival :
    (revival.registry.map Descriptor.key).Nodup ∧
    revival.reconcile.report = { added := 4, removed := 1, reindexed := 2 } ∧
    revival.reconcile.sequence.registry.map (·.index.number) = [1, 5, 6, 7, 8] ∧
    (claims revival.reconcile.sequence.nodes).map (·.declaration.field.index)
      = [some ⟨5⟩, some ⟨1⟩, some ⟨6⟩, some ⟨7⟩, some ⟨8⟩] := by
  have hkeys : (revival.registry.map Descriptor.key).Nodup := by decide
  obtain ⟨indices, hsequence, -, -, -, hreport⟩ := reconcile_closed hkeys
  have hregistry : revival.reconcile.sequence.registry
      = revival.registry.refreshed (claims revival.nodes)
        ++ revival.registry.freshEntries (claims revival.nodes) := by rw [hsequence]
  refine ⟨hkeys, hreport.trans (by decide), ?_, by decide⟩
  rw [hregistry]
  decide

end Sequence

end Sequencer
