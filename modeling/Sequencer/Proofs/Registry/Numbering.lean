import Sequencer.Proofs.Registry.Synchrony

/-!
# Sequencer.Proofs.Registry.Numbering

How high the indices of a registry go, and that 32 bits are enough for them.

A field may carry any index at any time. It is compared with those of the entries and nothing is
ever counted on from it, so how high the registry's own indices are depends only on how many
entries there have been.

* `Registry.Numbered`: a registry's indices lie below a number. A reconciliation adds to the number
  what it adds to the registry (`Numbered.reconcile`);
* `Registry.reconcileM_checked` says exactly when a reconciliation is ended by a sum that 32 bits do
  not hold, and that it comes to the same as one whose sums always fit otherwise;
* `Incident`: what can happen to a sequence, which is a call or any change of its nodes between the
  calls; `Sequence.undergo` and `undergo32?` are a history of incidents with either arithmetic;
* `Sequence.index_lt_added`: how high the indices are after a history;
* `Sequence.registry_author`: what is true of the registry of a sequence that calls in 32 bits made.
-/

namespace Sequencer

namespace Registry

/-! ### Counting in a pass -/

/-- A registry whose indices go up strictly and stay below a number. -/
structure Numbered (r : Registry) (n : Nat) : Prop where
  /-- The indices go up. -/
  ascending : r.Ascending
  /-- They stay below. -/
  below : ∀ d ∈ r, d.index.number < n

theorem numbered_nil : Numbered [] 0 := ⟨.nil, by simp⟩

private theorem foldl_max_index_le {r : Registry} {n m : Nat} (hm : m ≤ n)
    (h : ∀ d ∈ r, d.index.number < n) :
    r.foldl (fun n d => max n (d.index.number + 1)) m ≤ n := by
  induction r generalizing m with
  | nil => exact hm
  | cons d rest ih =>
      exact ih (Nat.max_le.mpr ⟨hm, h d List.mem_cons_self⟩)
        fun e he => h e (List.mem_cons_of_mem _ he)

/-- The next index is at most the number. -/
theorem Numbered.nextIndex_le {r : Registry} {n : Nat} (h : r.Numbered n) : nextIndex r ≤ n := by
  rw [nextIndex_eq]
  exact foldl_max_index_le (Nat.zero_le n) h.below

/-- Taking up a field either leaves the next index alone and creates no entry, or counts one on and
creates one entry. -/
theorem Pass.register_counts (p : Pass) (c : Claim) :
    ((p.register c).next = p.next ∧ (p.register c).candidates.length = p.candidates.length) ∨
    ((p.register c).next = p.next + 1 ∧
      (p.register c).candidates.length = p.candidates.length + 1) := by
  obtain ⟨-, heq⟩ | ⟨k, -, -, -, heq⟩ | ⟨position, k, -, -, -, heq⟩ := p.register_cases c
  · rw [heq]; exact .inr ⟨rfl, by simp [addFresh_eq]⟩
  · rw [heq]; exact .inr ⟨rfl, by simp [addFresh_eq]⟩
  · rw [heq]; exact .inl ⟨rfl, by simp [claim]⟩

theorem Pass.next_le_register (p : Pass) (c : Claim) : p.next ≤ (p.register c).next := by
  obtain ⟨h, -⟩ | ⟨h, -⟩ := p.register_counts c <;> omega

/-- As far as the next index goes up, entries are created. -/
theorem Pass.foldl_counts (p : Pass) (claims : List Claim) :
    ∃ k, (claims.foldl register p).next = p.next + k ∧
      (claims.foldl register p).candidates.length = p.candidates.length + k := by
  induction claims generalizing p with
  | nil => exact ⟨0, rfl, rfl⟩
  | cons c rest ih =>
      obtain ⟨k, hnext, hlength⟩ := ih (p.register c)
      rw [List.foldl_cons, hnext, hlength]
      obtain ⟨hn, hl⟩ | ⟨hn, hl⟩ := p.register_counts c
      · exact ⟨k, by omega, by omega⟩
      · exact ⟨k + 1, by omega, by omega⟩

/-- A pass ends as many indices above its first one as it has added entries. -/
theorem next_foldl_register (r : Registry) (claims : List Claim) :
    (claims.foldl Pass.register (.start r)).next
      = nextIndex r + (r.reconcile claims).report.added := by
  obtain ⟨k, hnext, hlength⟩ := (Pass.start r).foldl_counts claims
  have hadded : (r.reconcile claims).report.added = k := by
    rw [reconcile_eq, Pass.outcome, hlength, Pass.start_eq, List.length_map]
    exact Nat.add_sub_cancel_left _ _
  rw [hnext, hadded]
  rfl

/-- **One reconciliation**, whatever indices the fields carry, adds to the bound what it adds to the
registry. -/
theorem Numbered.reconcile {r : Registry} {n : Nat} (h : r.Numbered n) (claims : List Claim) :
    (r.reconcile claims).registry.Numbered (n + (r.reconcile claims).report.added) where
  ascending := (reconcile_sound h.ascending claims).1
  below := by
    intro d hd
    rw [reconcile_eq] at hd
    obtain ⟨k, hk, rfl⟩ := List.mem_map.mp hd
    have hlt := ((Pass.sound_start h.ascending).foldl claims).below _
      (List.mem_map_of_mem (List.mem_of_mem_filter hk))
    rw [next_foldl_register] at hlt
    have hle := h.nextIndex_le
    omega

/-! ### Counting in 32 bits -/

/-- A size that no step lowers is not lowered by a fold. -/
theorem size_le_foldl {α β : Type} (size : β → Nat) {step : β → α → β}
    (hgrow : ∀ b a, size b ≤ size (step b a)) (l : List α) (b : β) :
    size b ≤ size (l.foldl step b) := by
  induction l generalizing b with
  | nil => exact Nat.le_refl _
  | cons a rest ih => exact Nat.le_trans (hgrow b a) (ih _)

/-- A fold that looks after each step whether such a size is still below a limit: it is enough to
look at the end. -/
theorem foldlM_of_growing {α β : Type} (size : β → Nat) {limit : Nat} {step : β → α → β}
    {step? : β → α → Option β} (hgrow : ∀ b a, size b ≤ size (step b a))
    (hstep : ∀ b a, size b < limit →
      step? b a = if size (step b a) < limit then some (step b a) else none)
    (l : List α) {b : β} (hb : size b < limit) :
    l.foldlM step? b = if size (l.foldl step b) < limit then some (l.foldl step b) else none := by
  induction l generalizing b with
  | nil => rw [List.foldl_nil, if_pos hb]; rfl
  | cons a rest ih =>
      rw [List.foldlM_cons, List.foldl_cons, hstep b a hb]
      by_cases h : size (step b a) < limit
      · rw [if_pos h]
        exact ih h
      · -- the fold would only go further up from here
        have hle := size_le_foldl size hgrow rest (step b a)
        rw [if_neg h, if_neg (by omega)]
        rfl

theorem nextIndexM_checked (r : Registry) :
    r.nextIndexM .checked = if nextIndex r < limit32 then some (nextIndex r) else none := by
  rw [nextIndex_eq]
  refine foldlM_of_growing (fun n => n) (fun n d => Nat.le_max_left _ _) (fun n d hn => ?_) r
    (by decide)
  by_cases h : d.index.number + 1 < limit32
  · rw [if_pos (Nat.max_lt.mpr ⟨hn, h⟩)]
    simp [Counting.checked, h]
  · rw [if_neg fun hmax => h (Nat.max_lt.mp hmax).2]
    simp [Counting.checked, h]

theorem Pass.addFreshM_checked (p : Pass) (c : Claim) :
    p.addFreshM .checked c = if p.next + 1 < limit32 then some (p.addFresh c) else none := by
  by_cases h : p.next + 1 < limit32
  · simp [addFreshM, Counting.checked, h, addFresh_eq]
  · simp [addFreshM, Counting.checked, h]

theorem Pass.registerM_checked {p : Pass} (hp : p.next < limit32) (c : Claim) :
    p.registerM .checked c
      = if (p.register c).next < limit32 then some (p.register c) else none := by
  rw [register_eq, registerM]
  rcases c.declaration.key? with _ | key
  · exact p.addFreshM_checked c
  cases hfind : p.candidates.findIdx? (·.entry.key == key) with
  | none =>
      simp only [hfind]
      exact p.addFreshM_checked c
  | some position =>
      simp only [hfind]
      split
      · rw [addFreshM_checked]
        by_cases hfits : p.next + 1 < limit32
        · rw [if_pos hfits]
          exact (if_pos hfits).symm
        · rw [if_neg hfits]
          exact (if_neg hfits).symm
      · -- a field that claims an entry counts nothing
        exact (if_pos hp).symm

/-- **Overflow.** A checked reconciliation comes to the same as one whose sums always fit, unless
the next index behind all that are handed out does not fit. -/
theorem reconcileM_checked (r : Registry) (claims : List Claim) :
    r.reconcileM .checked claims =
      if nextIndex r + (r.reconcile claims).report.added < limit32 then some (r.reconcile claims)
      else none := by
  rw [reconcileM, Pass.startM, nextIndexM_checked, ← next_foldl_register, reconcile_eq]
  by_cases h : nextIndex r < limit32
  · have hpass := foldlM_of_growing Pass.next Pass.next_le_register
      (fun p c hp => Pass.registerM_checked hp c) claims (b := .start r) h
    rw [if_pos h]
    change (claims.foldlM (Pass.registerM .checked) (.start r)).bind _ = _
    rw [hpass]
    split <;> rfl
  · have hle : nextIndex r ≤ (claims.foldl Pass.register (.start r)).next := by
      rw [next_foldl_register]
      exact Nat.le_add_right _ _
    rw [if_neg h, if_neg (by omega)]
    rfl

/-- Behind the highest number there is no next one. Sums that wrap around go on below it, and
checked ones end the reconciliation. -/
example :
    let line (index : Option OverrideIndex) : Claim :=
      ⟨⟨.ofNat 1⟩, ⟨"Message", ⟨index, .string "Ding"⟩⟩⟩
    let r : Registry := [(line none).descriptor ⟨0⟩, (line none).descriptor ⟨4294967295⟩]
    let claims := [line (some ⟨0⟩), line (some ⟨4294967295⟩), line none]
    (Id.run (r.reconcileM .wrapping claims)).registry.map (·.index.number) = [0, 4294967295, 1] ∧
      (r.reconcileM .checked claims).isNone := by
  decide

end Registry

/-! ### Calls and incidents -/

variable {H : Host}

namespace Sequence

open Registry

theorem reconcileM_checked (s : Sequence H) :
    s.reconcileM .checked =
      if nextIndex s.registry + s.reconcile.report.added < limit32 then some s.reconcile
      else none := by
  rw [reconcileM, Registry.reconcileM_checked]
  change Option.bind
    (if nextIndex s.registry + s.reconcile.report.added < limit32 then _ else _) _ = _
  split <;> rfl

end Sequence

namespace Edit

open Registry

/-- A call is not ended if the next index behind all that it hands out fits. -/
theorem outcome32?_eq {s : Sequence H} {e : Edit H}
    (h : nextIndex s.registry + (e.apply s).report.added < limit32) :
    e.outcome32? s = some (e.outcome s) := by
  obtain ⟨nodes, result, hrun⟩ | ⟨result, edited, hrun, -⟩ := e.run_cases s
  · have happly : e.apply s = s.withNodes nodes := congrArg Prod.snd (hrun .unbounded)
    have houtcome : e.outcome s = (result (s.withNodes nodes), s.withNodes nodes) := hrun .unbounded
    rw [happly] at h
    rw [houtcome, outcome32?, hrun, Sequence.reconcileM_checked]
    exact congrArg (Option.map _) (if_pos h)
  · rw [outcome32?, hrun]
    exact congrArg some (hrun .unbounded).symm

end Edit

/-- What can happen to a sequence. -/
inductive Incident (H : Host)
  /-- A call. -/
  | call (edit : Edit H)
  /-- Anything but the registry changes between two calls, such as the indices of fields. -/
  | between (change : Sequence H → Sequence H)

namespace Incident

open Registry

/-- What an incident leaves and reports. -/
def apply (s : Sequence H) : Incident H → Sequence.Edited H
  | call edit => edit.apply s
  | between change => .unchanged { change s with registry := s.registry }

/-- What an incident leaves, each sum in 32 bits. -/
def apply32? (s : Sequence H) : Incident H → Option (Sequence H)
  | call edit => edit.apply32? s
  | between change => some { change s with registry := s.registry }

variable {s : Sequence H} {n : Nat}

/-- **One incident** adds to the bound what it adds to the registry. -/
theorem numbered_apply (h : s.registry.Numbered n) (i : Incident H) :
    (i.apply s).sequence.registry.Numbered (n + (i.apply s).report.added) := by
  cases i with
  | call edit =>
      simp only [apply]
      obtain heq | ⟨nodes, heq⟩ | ⟨position, entry, name, -, heq⟩ := edit.apply_cases s
      · rw [heq]; exact h
      · rw [heq]; exact h.reconcile (Sequence.claims nodes)
      · rw [heq]; exact h
  | between change => exact h

/-- An incident needs no more than 32 bits if all entries so far, those that it adds included, are
fewer than `limit32`. -/
theorem apply32?_eq (h : s.registry.Numbered n) (i : Incident H)
    (hlt : n + (i.apply s).report.added < limit32) : i.apply32? s = some (i.apply s).sequence := by
  cases i with
  | call edit =>
      have hnext := h.nextIndex_le
      have hfits : nextIndex s.registry + (edit.apply s).report.added < limit32 := by
        simp only [apply] at hlt
        omega
      rw [apply32?, Edit.apply32?, Edit.outcome32?_eq hfits]
      rfl
  | between change => rfl

end Incident

/-! ### Histories -/

namespace Sequence

open Registry

/-- The sequence after a history of incidents. -/
def undergo (s : Sequence H) (history : List (Incident H)) : Sequence H :=
  history.foldl (fun s i => (i.apply s).sequence) s

/-- The sequence after a history of incidents, each sum in 32 bits, or nothing if one of them does
not fit. -/
def undergo32? (s : Sequence H) (history : List (Incident H)) : Option (Sequence H) :=
  history.foldlM Incident.apply32? s

/-- The entries that the reconciliations of a history create in all. -/
def added (s : Sequence H) : List (Incident H) → Nat
  | [] => 0
  | i :: rest => (i.apply s).report.added + (i.apply s).sequence.added rest

theorem undergo_cons (s : Sequence H) (i : Incident H) (rest : List (Incident H)) :
    s.undergo (i :: rest) = (i.apply s).sequence.undergo rest := rfl

variable {s : Sequence H} {n : Nat}

theorem numbered_undergo (h : s.registry.Numbered n) (history : List (Incident H)) :
    (s.undergo history).registry.Numbered (n + s.added history) := by
  induction history generalizing s n with
  | nil => exact h
  | cons i rest ih =>
      rw [undergo_cons, added, ← Nat.add_assoc]
      exact ih (i.numbered_apply h)

theorem undergo32?_eq (h : s.registry.Numbered n) (history : List (Incident H))
    (hlt : n + s.added history < limit32) : s.undergo32? history = some (s.undergo history) := by
  induction history generalizing s n with
  | nil => rfl
  | cons i rest ih =>
      rw [added, ← Nat.add_assoc] at hlt
      rw [undergo32?, List.foldlM_cons, i.apply32?_eq h (by omega)]
      exact ih (i.numbered_apply h) hlt

/-- **Indices count entries.** After any history of a new sequence, in which fields carry any
indices at any time: every index in the registry is smaller than the number of entries that the
reconciliations have created in all. So a history that creates fewer than `limit32` entries is the
same if each sum for a next index is taken in 32 bits: none of them overflows. -/
theorem index_lt_added (id : SequenceId) (name : String) (parallel : Bool)
    (history : List (Incident H)) :
    let s : Sequence H := .new id name parallel
    (∀ d ∈ (s.undergo history).registry, d.index.number < s.added history) ∧
    (s.added history < limit32 → s.undergo32? history = some (s.undergo history)) := by
  intro s
  have hnew : s.registry.Numbered 0 := numbered_nil
  constructor
  · have hbelow := (numbered_undergo hnew history).below
    rwa [Nat.zero_add] at hbelow
  · intro hlt
    exact undergo32?_eq hnew history (by omega)

/-- Two bells that carry the highest 32-bit number at first. Then the first one is given it again
and the second one the index of the first; and then the first one that of the second. -/
def carillon : List (Incident Host.none) :=
  [.call (.add ⟨.ofNat 1⟩ (.log ⟨some ⟨4294967295⟩, "Ding"⟩ .info)),
    .call (.add ⟨.ofNat 2⟩ (.log ⟨some ⟨4294967295⟩, "Dong"⟩ .info)),
    .between fun s =>
      { s with
        nodes :=
          [.new ⟨.ofNat 1⟩ (.log ⟨some ⟨4294967295⟩, "Ding"⟩ .info),
            .new ⟨.ofNat 2⟩ (.log ⟨some ⟨0⟩, "Dong"⟩ .info)] },
    .call .reconcile,
    .call (.edit ⟨.ofNat 1⟩ fun _ => .log ⟨some ⟨0⟩, "Ding"⟩ .info)]

/-- Four entries are created, and the indices stay below four. -/
theorem index_lt_added_carillon :
    let s : Sequence Host.none := .new ⟨.ofNat 1⟩ "carillon"
    s.added carillon = 4 ∧ (s.undergo carillon).registry.map (·.index.number) = [0, 3] ∧
    (∀ d ∈ (s.undergo carillon).registry, d.index.number < s.added carillon) ∧
    s.added carillon < limit32 ∧ s.undergo32? carillon = some (s.undergo carillon) := by
  obtain ⟨hbelow, hfits⟩ := index_lt_added (H := Host.none) ⟨.ofNat 1⟩ "carillon" false carillon
  have hadded : (Sequence.new (H := Host.none) ⟨.ofNat 1⟩ "carillon").added carillon = 4 := by
    decide
  have hlt : (Sequence.new (H := Host.none) ⟨.ofNat 1⟩ "carillon").added carillon < limit32 := by
    rw [hadded]
    decide
  exact ⟨hadded, by decide, hbelow, hlt, hfits hlt⟩

/-! ### The registry in 32 bits -/

/-- A call that no sum ends leaves the indices below a number of 32 bits. -/
theorem numbered_of_checked {s' : Sequence H} {e : Edit H} (h : s.registry.Numbered n)
    (hn : n < limit32) (happly : e.apply32? s = some s') :
    ∃ m < limit32, s'.registry.Numbered m := by
  obtain ⟨r, hr, rfl⟩ := Option.map_eq_some_iff.mp happly
  obtain ⟨nodes, result, hrun⟩ | ⟨result, edited, hrun, hedited⟩ := e.run_cases s
  · -- the calls that count: their last sum is the next index
    rw [Edit.outcome32?, hrun, reconcileM_checked] at hr
    obtain ⟨edited, hedited, rfl⟩ := Option.map_eq_some_iff.mp hr
    obtain ⟨hfits, hreconciled⟩ := Option.ite_none_right_eq_some.mp hedited
    obtain rfl := Option.some.inj hreconciled
    have hnext : s.registry.Numbered (nextIndex s.registry) :=
      ⟨h.ascending, fun _ hd => index_lt_nextIndex hd⟩
    exact ⟨_, hfits, hnext.reconcile (claims nodes)⟩
  · rw [Edit.outcome32?, hrun] at hr
    obtain rfl : (result, edited) = r := Option.some.inj hr
    refine ⟨n, hn, ?_⟩
    obtain rfl | ⟨position, entry, name, -, rfl⟩ := hedited
    · exact h
    · exact h

theorem numbered_author32 {s' : Sequence H} {edits : List (Edit H)} (h : s.registry.Numbered n)
    (hn : n < limit32) (hauthor : s.author32? edits = some s') :
    ∃ m < limit32, s'.registry.Numbered m := by
  induction edits generalizing s n with
  | nil =>
      obtain rfl := Option.some.inj hauthor
      exact ⟨n, hn, h⟩
  | cons e rest ih =>
      obtain ⟨s₁, he, hrest⟩ := Option.bind_eq_some_iff.mp hauthor
      obtain ⟨m, hm, hnumbered⟩ := numbered_of_checked h hn he
      exact ih hnumbered hm hrest

/-- **The registry stays in step with its fields.** Take any history of calls on a new sequence,
whatever indices, values and declarations its authors give the nodes. If no call is ended by a sum
that 32 bits do not hold, then the history comes to the same if sums wrap around, and: each declared
field carries an index, and the one entry under that index has the field's kind, label, node and
template value; there are no other entries; the indices ascend strictly, so that not even fields of
different kinds share one; and one more reconciliation changes neither the registry nor a field,
reports that everything was in order, and is not ended by a sum. No call is ended in a history that
creates fewer than `limit32` entries in all. -/
theorem registry_author (id : SequenceId) (name : String) (parallel : Bool)
    (edits : List (Edit H)) :
    let new : Sequence H := .new id name parallel
    (∀ s, new.author32? edits = some s →
      new.authorWrapped edits = s ∧
      (∀ c ∈ claims s.nodes, ∃ index, c.declaration.field.index = some index ∧
        s.registry.filter (·.index == index) = [c.descriptor index]) ∧
      ((claims s.nodes).map Claim.descriptor?).Perm (s.registry.map some) ∧
      s.registry.Ascending ∧
      (Editing.reconcile .checked).run (.unchanged s) = some ({}, .unchanged s) ∧
      (Editing.reconcile .wrapping).run (.unchanged s) = pure ({}, .unchanged s)) ∧
    (new.added (edits.map .call) < limit32 → ∃ s, new.author32? edits = some s) := by
  intro new
  constructor
  · intro s hauthor
    obtain ⟨rfl, hwrapped⟩ := author_of_checked hauthor
    have hsync : (new.author edits).InSync := (inSync_new id name parallel).author edits
    have hagain : (new.author edits).reconcile = .unchanged (new.author edits) := hsync.reconcile_eq
    obtain ⟨m, hm, hnumbered⟩ := numbered_author32 (s := new) numbered_nil (by decide) hauthor
    -- one more reconciliation takes the sum for each entry, and no further one
    have hfits : nextIndex (new.author edits).registry
        + (new.author edits).reconcile.report.added < limit32 := by
      rw [hagain]
      exact Nat.lt_of_le_of_lt hnumbered.nextIndex_le hm
    have hchecked : (Editing.reconcile .checked).run (.unchanged (new.author edits))
        = some ({}, .unchanged (new.author edits)) := by
      rw [Editing.run_reconcile, reconcileM_checked, if_pos hfits, hagain]
      rfl
    exact ⟨hwrapped, fun c hc => hsync.filter_index hc, hsync.describes, hsync.ascending, hchecked,
      (Edit.outcome_of_checked (e := .reconcile) hchecked).2⟩
  · intro hlt
    refine ⟨new.undergo (edits.map .call), ?_⟩
    have hundergo := undergo32?_eq (s := new) numbered_nil (edits.map .call) (by omega)
    rwa [undergo32?, List.foldlM_map] at hundergo

/-- Two bells, of which the second one is to ring like the first, and then the first one like the
second. -/
def chimes : List (Edit Host.none) :=
  [.add ⟨.ofNat 1⟩ (.log ⟨some ⟨4294967295⟩, "Ding"⟩ .info),
    .add ⟨.ofNat 2⟩ (.log ⟨some ⟨0⟩, "Dong"⟩ .info),
    .edit ⟨.ofNat 1⟩ fun _ => .log ⟨some ⟨1⟩, "Ding"⟩ .info]

/-- No sum is too high, since there are three entries in all, of which the first one is dropped. -/
theorem registry_author_chimes :
    let new : Sequence Host.none := .new ⟨.ofNat 1⟩ "chimes"
    new.added (chimes.map .call) < limit32 ∧
    ∃ s, new.author32? chimes = some s ∧ new.authorWrapped chimes = s ∧
      s.registry.map (fun d => (d.index.number, d.node)) = [(1, ⟨.ofNat 1⟩), (2, ⟨.ofNat 2⟩)] ∧
      (Editing.reconcile .checked).run (.unchanged s) = some ({}, .unchanged s) := by
  intro new
  have hadded : new.added (chimes.map .call) < limit32 := by decide
  obtain ⟨hsound, hfits⟩ := registry_author (H := Host.none) ⟨.ofNat 1⟩ "chimes" false chimes
  obtain ⟨s, hauthor⟩ := hfits hadded
  obtain ⟨hwrapped, -, -, -, hagain, -⟩ := hsound s hauthor
  refine ⟨hadded, s, hauthor, hwrapped, ?_, hagain⟩
  rw [← hwrapped]
  decide

end Sequence

end Sequencer
