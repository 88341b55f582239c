import Sequencer.Proofs.Binding.Allot
import Sequencer.Proofs.Binding.Occurrences
import Sequencer.Proofs.Registry.Synchrony

/-!
# Sequencer.Proofs.Binding.Reconcile

Reconciled bindings, whatever they were before.

Both passes take old elements up by their keys, so that each is an allotment and a function of what
was allotted: `slotFor` for an entry of a registry, `groupFor` for an occurrence. The counts of the
report say how the allotments fell short.

* `SlotPass.foldl_provide`, `GroupPass.foldl_provide`: the passes as allotments;
* `canonical_reconcile`: reconciled bindings are `Canonical`, and `reconcile_of_canonical`:
  such bindings stay as they are;
* `isUnchanged_iff_fits`: the report has nothing to tell exactly if the bindings did fit.
-/

namespace Sequencer

variable {H : Host}

/-! ### Registries -/

/-- Entries that are told apart by their addresses, each with a default value of its kind. -/
structure Registry.Tidy (r : Registry) : Prop where
  nodup : (r.map Descriptor.key).Nodup
  typed : ∀ d ∈ r, d.defaultValue.type = d.type

theorem Sequence.InSync.tidy {s : Sequence H} (h : s.InSync) : s.registry.Tidy where
  nodup := by
    have hindices : ((s.registry.map Descriptor.key).map (·.index.number)).Nodup := by
      rw [List.map_map]
      exact List.Pairwise.imp Nat.ne_of_lt h.ascending
    exact hindices.of_map
  typed := by
    intro d hd
    obtain ⟨c, -, hc⟩ := List.mem_map.mp (h.describes.mem_iff.mpr (List.mem_map_of_mem hd))
    rw [← (Registry.Claim.descriptor?_eq_some_iff.mp hc).2]
    rfl

namespace Sequence

theorem Authored.of_reaches {root : Sequence H} (hroot : root.Authored) {r : Reached H}
    (h : root.Reaches r) : r.sequence.Authored := by
  induction h with
  | refl => exact hroot
  | tail _ hnests ih => exact ih.nested _ hnests

/-- The occurrences that have bindings. -/
def targets (root : Sequence H) : List (Reached H) :=
  (firsts Reached.key root.visits).filter fun r => !r.sequence.registry.isEmpty

theorem targets_sublist (root : Sequence H) : root.targets.Sublist root.visits :=
  List.filter_sublist.trans (firsts_sublist Reached.key _)

theorem mem_targets_iff {root : Sequence H} {r : Reached H} :
    r ∈ root.targets ↔
      root.visits.find? (·.key == r.key) = some r ∧ r.sequence.registry ≠ [] := by
  rw [targets, List.mem_filter, mem_firsts_iff]
  simp

theorem nodup_targets (root : Sequence H) : (root.targets.map Reached.key).Nodup :=
  (nodup_firsts Reached.key root.visits).sublist (List.filter_sublist.map _)

/-- The walk starts with the root, so that its address is the root's whatever is nested in it. -/
theorem root_mem_targets {root : Sequence H} (h : root.registry ≠ []) :
    ⟨root, .root⟩ ∈ root.targets := by
  refine mem_targets_iff.mpr ⟨?_, h⟩
  have hvisits : root.visits = ⟨root, .root⟩ :: root.nestedSequences.flatMap fun n =>
      Traversal.visits n.2 n.1 [root.id] := by
    rw [visits, Traversal.visits_eq]
    simp
  rw [hvisits, List.find?_cons, beq_self_eq_true]

/-- If identifiers tell sequences apart, then an address tells which sequence it is of. -/
theorem Reaches.mem_targets {root : Sequence H} (hids : root.DistinctIds) {r : Reached H}
    (h : root.Reaches r) (hr : r.sequence.registry ≠ []) : r ∈ root.targets := by
  refine mem_targets_iff.mpr ⟨?_, hr⟩
  have hmem := h.mem_visits hids
  obtain ⟨q, hfind⟩ : ∃ q, root.visits.find? (·.key == r.key) = some q :=
    Option.isSome_iff_exists.mp (List.find?_isSome.mpr ⟨r, hmem, beq_self_eq_true r.key⟩)
  have hkey : q.key = r.key := by simpa using List.find?_some hfind
  have hq : root.Reaches q := reaches_of_mem_visits (List.mem_of_find?_eq_some hfind)
  have hsequence : q.sequence = r.sequence := hids q r hq h (congrArg Occurrence.sequence hkey)
  have hnested : q.nested = r.nested := congrArg Occurrence.nested hkey
  have heq : q = r := by
    obtain ⟨s, nested⟩ := r
    obtain ⟨s', nested'⟩ := q
    simp_all
  rw [hfind, heq]

/-- The entry of a declared field. -/
theorem InSync.exists_entry {s : Sequence H} (h : s.InSync) {c : Registry.Claim}
    (hc : c ∈ claims s.nodes) :
    ∃ d ∈ s.registry, c.declaration.field.index = some d.index ∧
      d.type = c.declaration.field.value.type ∧ d.defaultValue = c.declaration.field.value := by
  obtain ⟨index, hindex, hentry⟩ := h.filter_index hc
  have hmem : c.descriptor index ∈ s.registry.filter (·.index == index) := by simp [hentry]
  exact ⟨c.descriptor index, (List.mem_filter.mp hmem).1, hindex, rfl, rfl⟩

theorem Authored.tidy {root : Sequence H} (hroot : root.Authored) :
    ∀ r ∈ root.targets, r.sequence.registry.Tidy := fun _ hr =>
  (hroot.of_reaches (reaches_of_mem_visits ((targets_sublist root).subset hr))).inSync.tidy

end Sequence

namespace BindingReport

theorem isUnchanged_iff {r : BindingReport} :
    r.isUnchanged = true ↔ r.groupsAdded = 0 ∧ r.groupsRemoved = 0 ∧ r.slotsAdded = 0 ∧
      r.slotsRemoved = 0 ∧ r.slotsReset = 0 := by
  obtain ⟨a, b, c, d, e⟩ := r
  simp [isUnchanged]

end BindingReport

namespace Bindings

/-! ### Slots -/

/-- The slot of an entry, given the old one. -/
def slotFor (d : Descriptor) : Option Slot → Slot
  | none => .disabled d
  | some slot => if slot.value.type = slot.type then slot else .disabled d

theorem slotFor_some {d : Descriptor} {s : Slot} (h : s.value.type = s.type) :
    slotFor d (some s) = s := if_pos h

theorem slotFor_mistyped {d : Descriptor} {s : Slot} (h : s.value.type ≠ s.type) :
    slotFor d (some s) = .disabled d := if_neg h

/-- Does a slot hold a value of another kind than its own? -/
def isMistyped (found : Option Slot) : Bool := found.any fun s => s.value.type ≠ s.type

/-- The old slots that the entries of a registry take up, and what is left. -/
abbrev allotSlots (r : Registry) (slots : List Slot) : List (Option Slot) × List Slot :=
  allot Slot.key (r.map Descriptor.key) slots

theorem allotSlots_cons (d : Descriptor) (r : Registry) (slots : List Slot) :
    allotSlots (d :: r) slots =
      ((takeKey Slot.key d.key slots).1 :: (allotSlots r (takeKey Slot.key d.key slots).2).1,
      (allotSlots r (takeKey Slot.key d.key slots).2).2) := rfl

theorem isFor_eq_key (d : Descriptor) :
    (fun s : Slot => d.isFor s.index s.type) = (·.key == d.key) := by
  funext s
  rw [Bool.eq_iff_iff, beq_iff_eq, Slot.key, Descriptor.key, OverrideKey.mk.injEq, Descriptor.isFor,
    Bool.and_eq_true, beq_iff_eq, beq_iff_eq, eq_comm, @eq_comm _ d.type]

/-- An entry takes up a slot, and counts it if it was missing or is reset. -/
theorem SlotPass.provide_eq (name : String) (nested : NestedId) (p : SlotPass) (d : Descriptor) :
    ∃ notices, provide name nested p d =
      { left := (takeKey Slot.key d.key p.left).2
        slots := p.slots ++ [slotFor d (takeKey Slot.key d.key p.left).1]
        added := p.added + (if (takeKey Slot.key d.key p.left).1.isNone then 1 else 0)
        reset := p.reset + (if isMistyped (takeKey Slot.key d.key p.left).1 then 1 else 0)
        notices } := by
  rw [provide, isFor_eq_key, takeKey]
  cases takeOut? (·.key == d.key) p.left with
  | none => exact ⟨p.notices, rfl⟩
  | some taken =>
      dsimp only
      split
      · rename_i htyped
        exact ⟨p.notices, by simp [slotFor, isMistyped, htyped]⟩
      · rename_i htyped
        have hmistyped : isMistyped (some taken.1) = true := by simp [isMistyped, htyped]
        refine ⟨p.notices ++ [.slotReset taken.1.index name nested taken.1.value.type], ?_⟩
        rw [hmistyped, slotFor_mistyped htyped]
        rfl

theorem SlotPass.foldl_provide (name : String) (nested : NestedId) (r : Registry) (p : SlotPass) :
    ∃ notices, r.foldl (provide name nested) p =
      { left := (allotSlots r p.left).2
        slots := p.slots ++ List.zipWith slotFor r (allotSlots r p.left).1
        added := p.added + (allotSlots r p.left).1.countP Option.isNone
        reset := p.reset + (allotSlots r p.left).1.countP isMistyped
        notices } := by
  induction r generalizing p with
  | nil => exact ⟨p.notices, by simp [allotSlots, allot]⟩
  | cons d r ih =>
      obtain ⟨_, hstep⟩ := provide_eq name nested p d
      obtain ⟨notices, hrest⟩ := ih (provide name nested p d)
      refine ⟨notices, ?_⟩
      rw [List.foldl_cons, hrest, hstep, allotSlots_cons]
      simp only [List.zipWith_cons_cons, List.append_assoc, List.singleton_append, List.countP_cons]
      congr 1 <;> omega

/-- Slots for the entries of a registry, in any order, and no value of another kind in them. -/
structure SlotsFit (r : Registry) (slots : List Slot) : Prop where
  keys : (slots.map Slot.key).Perm (r.map Descriptor.key)
  typed : ∀ s ∈ slots, s.value.type = s.type

theorem slotsFit_iff {r : Registry} {slots : List Slot} :
    SlotsFit r slots ↔ (allotSlots r slots).1.countP Option.isNone = 0 ∧
      (allotSlots r slots).2.length = 0 ∧ (allotSlots r slots).1.countP isMistyped = 0 := by
  have hnone : (allotSlots r slots).1.countP Option.isNone = 0 ↔ none ∉ (allotSlots r slots).1 := by
    rw [List.countP_eq_zero]
    constructor
    · exact fun h hmem => h none hmem rfl
    · intro h found hfound hisNone
      rw [Option.isNone_iff_eq_none] at hisNone
      exact h (hisNone ▸ hfound)
  have htyped : (allotSlots r slots).1.countP isMistyped = 0 ↔
      ∀ s, some s ∈ (allotSlots r slots).1 → s.value.type = s.type := by
    rw [List.countP_eq_zero]
    constructor
    · exact fun h s hs => by simpa [isMistyped] using h _ hs
    · intro h found hfound
      cases found with
      | none => simp [isMistyped]
      | some s => simpa [isMistyped] using h s hfound
  rw [hnone, htyped, List.length_eq_zero_iff]
  constructor
  · rintro ⟨hkeys, hall⟩
    obtain ⟨hfound, hleft⟩ := allot_complete_iff.mpr hkeys
    exact ⟨hfound, hleft, fun s hs => hall s (mem_of_mem_allot hs)⟩
  · rintro ⟨hfound, hleft, hall⟩
    refine ⟨allot_complete_iff.mp ⟨hfound, hleft⟩, fun s hs => hall s ?_⟩
    have hperm := perm_allot Slot.key (r.map Descriptor.key) slots
    rw [hleft, List.append_nil] at hperm
    exact List.reduceOption_mem_iff.mp (hperm.mem_iff.mpr hs)

/-! ### Groups -/

/-- The group of an occurrence, given the old one. -/
def groupFor (r : Reached H) (found : Option Group) : Group :=
  let group := found.getD { sequence := r.sequence.id, nested := r.nested }
  { group with
    name := r.sequence.name
    slots := List.zipWith slotFor r.sequence.registry
      (allotSlots r.sequence.registry group.slots).1 }

/-- The old group of an occurrence is there, with the right slots. -/
def GroupFits (r : Reached H) (found : Option Group) : Prop :=
  ∃ g, found = some g ∧ SlotsFit r.sequence.registry g.slots

/-- An occurrence takes up a group, and counts what was missing or too much. -/
theorem GroupPass.provide_eq (p : GroupPass) {r : Reached H} (hr : r.sequence.registry ≠ []) :
    ∃ report notices, p.provide r =
      { left := (takeKey Group.key r.key p.left).2
        groups := p.groups ++ [groupFor r (takeKey Group.key r.key p.left).1]
        report
        notices } ∧
      report.groupsRemoved = p.report.groupsRemoved ∧
      (report.isUnchanged = true ↔
        p.report.isUnchanged = true ∧ GroupFits r (takeKey Group.key r.key p.left).1) := by
  have hisFor : (fun g : Group => g.isFor r.key) = (·.key == r.key) := rfl
  have hempty : r.sequence.registry.isEmpty = false := by simpa using hr
  rw [provide, hempty, hisFor, takeKey]
  cases takeOut? (·.key == r.key) p.left with
  | none =>
      obtain ⟨notices, hslots⟩ := SlotPass.foldl_provide r.sequence.name r.nested
        r.sequence.registry { left := [] }
      dsimp only
      rw [if_neg Bool.false_ne_true, hslots]
      refine ⟨_, _, rfl, rfl, ?_⟩
      simp [BindingReport.isUnchanged_iff, GroupFits]
  | some taken =>
      obtain ⟨notices, hslots⟩ := SlotPass.foldl_provide r.sequence.name r.nested
        r.sequence.registry { left := taken.1.slots }
      dsimp only
      rw [if_neg Bool.false_ne_true, hslots]
      refine ⟨_, _, rfl, rfl, ?_⟩
      simp only [BindingReport.isUnchanged_iff, GroupFits, Option.some.injEq, exists_eq_left',
        slotsFit_iff]
      omega

/-- The old groups that the occurrences take up, and what is left. -/
abbrev allotGroups (targets : List (Reached H)) (groups : List Group) :
    List (Option Group) × List Group :=
  allot Group.key (targets.map Reached.key) groups

theorem allotGroups_cons (r : Reached H) (targets : List (Reached H)) (groups : List Group) :
    allotGroups (r :: targets) groups =
      ((takeKey Group.key r.key groups).1 ::
        (allotGroups targets (takeKey Group.key r.key groups).2).1,
      (allotGroups targets (takeKey Group.key r.key groups).2).2) := rfl

theorem GroupPass.foldl_provide (reached : List (Reached H)) (p : GroupPass) :
    let targets := reached.filter fun r => !r.sequence.registry.isEmpty
    ∃ report notices, reached.foldl provide p =
      { left := (allotGroups targets p.left).2
        groups := p.groups ++ List.zipWith groupFor targets (allotGroups targets p.left).1
        report
        notices } ∧
      report.groupsRemoved = p.report.groupsRemoved ∧
      (report.isUnchanged = true ↔ p.report.isUnchanged = true ∧
        List.Forall₂ GroupFits targets (allotGroups targets p.left).1) := by
  induction reached generalizing p with
  | nil =>
      exact ⟨p.report, p.notices, by simp [allotGroups, allot], rfl, by simp [allotGroups, allot]⟩
  | cons r reached ih =>
      obtain ⟨report, notices, hrest, hremoved, hchanged⟩ := ih (p.provide r)
      by_cases hr : r.sequence.registry = []
      · have hskip : p.provide r = p := by simp [provide, hr]
        have hfilter : (r :: reached).filter (fun r => !r.sequence.registry.isEmpty)
            = reached.filter fun r => !r.sequence.registry.isEmpty := by simp [hr]
        rw [hfilter, List.foldl_cons, hrest]
        rw [hskip] at hremoved hchanged ⊢
        exact ⟨report, notices, rfl, hremoved, hchanged⟩
      · obtain ⟨report', _, hstep, hremoved', hchanged'⟩ := provide_eq p hr
        have hfilter : (r :: reached).filter (fun r => !r.sequence.registry.isEmpty)
            = r :: reached.filter fun r => !r.sequence.registry.isEmpty := by simp [hr]
        rw [hfilter, List.foldl_cons, hrest]
        rw [hstep] at hremoved hchanged ⊢
        refine ⟨report, notices, ?_, hremoved.trans hremoved', ?_⟩
        · simp only [allotGroups_cons, List.zipWith_cons_cons, List.append_assoc,
            List.singleton_append]
        · rw [hchanged, hchanged', allotGroups_cons, List.forall₂_cons, and_assoc]

/-- **A reconciliation as an allotment.** -/
theorem reconcile_eq (b : Bindings) (root : Sequence H) :
    (b.reconcile root).bindings.groups
      = List.zipWith groupFor root.targets (allotGroups root.targets b.groups).1 ∧
    ((b.reconcile root).report.isUnchanged = true ↔
      (allotGroups root.targets b.groups).2 = [] ∧
        List.Forall₂ GroupFits root.targets (allotGroups root.targets b.groups).1) := by
  obtain ⟨report, notices, hpass, hremoved, hchanged⟩ :=
    GroupPass.foldl_provide root.traverse.reached { left := b.groups }
  have htargets : root.traverse.reached.filter (fun r => !r.sequence.registry.isEmpty)
      = root.targets := by rw [root.reached_traverse, Sequence.targets]
  rw [htargets] at hpass hchanged
  constructor
  · rw [reconcile, hpass]
    rfl
  · have hzero : report.groupsRemoved = 0 := hremoved
    have hchanged : report.isUnchanged = true ↔
        List.Forall₂ GroupFits root.targets (allotGroups root.targets b.groups).1 := by
      rw [hchanged]
      exact and_iff_right rfl
    have hreport : (b.reconcile root).report =
        { report with groupsRemoved := (allotGroups root.targets b.groups).2.length } := by
      rw [reconcile, hpass]
    rw [hreport, ← hchanged, ← List.length_eq_zero_iff, BindingReport.isUnchanged_iff,
      BindingReport.isUnchanged_iff]
    dsimp only
    omega

end Bindings

/-! ### Alignment -/

/-- A slot is that of an entry, and holds a value of its kind. -/
structure Slot.Aligned (d : Descriptor) (s : Slot) : Prop where
  key : s.key = d.key
  typed : s.value.type = s.type

/-- A group is that of an occurrence, with a slot for each entry in the order of the registry. -/
structure Group.Aligned (r : Reached H) (g : Group) : Prop where
  key : g.key = r.key
  name : g.name = r.sequence.name
  slots : List.Forall₂ Slot.Aligned r.sequence.registry g.slots

/-- A group for each occurrence that has bindings, in the order of the occurrences. -/
def Bindings.Aligned (b : Bindings) (root : Sequence H) : Prop :=
  List.Forall₂ Group.Aligned root.targets b.groups

namespace Group.Aligned

variable {r : Reached H} {g : Group}

theorem keys (h : g.Aligned r) : g.slots.map Slot.key = r.sequence.registry.map Descriptor.key :=
  map_eq_map_iff_forall₂.mpr (h.slots.imp fun _ _ haligned => haligned.key)

theorem typed (h : g.Aligned r) : ∀ s ∈ g.slots, s.value.type = s.type := by
  intro s hs
  obtain ⟨d, -, haligned⟩ := exists_of_forall₂ h.slots hs
  exact haligned.typed

theorem slotsFit (h : g.Aligned r) : Bindings.SlotsFit r.sequence.registry g.slots :=
  ⟨.of_eq h.keys, h.typed⟩

end Group.Aligned

namespace Bindings

variable {root : Sequence H} {b : Bindings}

theorem Aligned.keys (h : b.Aligned root) : b.groups.map Group.key = root.targets.map Reached.key :=
  map_eq_map_iff_forall₂.mpr (List.Forall₂.imp (fun _ _ haligned => haligned.key) h)

theorem key_slotFor {d : Descriptor} {found : Option Slot}
    (hkey : ∀ s, found = some s → s.key = d.key) : (slotFor d found).key = d.key := by
  cases found with
  | none => rfl
  | some s =>
      by_cases htyped : s.value.type = s.type
      · rw [slotFor_some htyped]
        exact hkey s rfl
      · rw [slotFor_mistyped htyped]
        rfl

theorem aligned_slotFor {d : Descriptor} {found : Option Slot} (hd : d.defaultValue.type = d.type)
    (hkey : ∀ s, found = some s → s.key = d.key) : (slotFor d found).Aligned d := by
  refine ⟨key_slotFor hkey, ?_⟩
  cases found with
  | none => exact hd
  | some s =>
      by_cases htyped : s.value.type = s.type
      · rw [slotFor_some htyped]
        exact htyped
      · rw [slotFor_mistyped htyped]
        exact hd

theorem key_groupFor {r : Reached H} {found : Option Group}
    (hkey : ∀ g, found = some g → g.key = r.key) : (groupFor r found).key = r.key := by
  cases found with
  | none => rfl
  | some g => exact hkey g rfl

theorem aligned_groupFor {r : Reached H} {found : Option Group} (hr : r.sequence.registry.Tidy)
    (hkey : ∀ g, found = some g → g.key = r.key) : (groupFor r found).Aligned r where
  key := key_groupFor hkey
  name := rfl
  slots := by
    have hkeys := key_allot Slot.key (r.sequence.registry.map Descriptor.key)
      (found.getD { sequence := r.sequence.id, nested := r.nested }).slots
    rw [List.forall₂_map_left_iff] at hkeys
    exact forall₂_zipWith hkeys fun d hd _ hfound => aligned_slotFor (hr.typed d hd) hfound

/-- **Alignment.** Whatever they were, reconciled bindings have one group for each occurrence, with
one slot for each entry. -/
theorem aligned_reconcile (b : Bindings) (hroot : ∀ r ∈ root.targets, r.sequence.registry.Tidy) :
    (b.reconcile root).bindings.Aligned root := by
  have hkeys := key_allot Group.key (root.targets.map Reached.key) b.groups
  rw [List.forall₂_map_left_iff] at hkeys
  rw [Aligned, (reconcile_eq b root).1]
  exact forall₂_zipWith hkeys fun r hr _ hfound => aligned_groupFor (hroot r hr) hfound

theorem groupFor_of_aligned {r : Reached H} {g : Group} (hr : r.sequence.registry.Tidy)
    (h : g.Aligned r) : groupFor r (some g) = g := by
  have hslots : allotSlots r.sequence.registry g.slots = (g.slots.map some, []) := by
    rw [allotSlots, ← h.keys]
    exact allot_map_key (h.keys ▸ hr.nodup)
  have hsame : List.zipWith slotFor r.sequence.registry (g.slots.map some) = g.slots :=
    zipWith_map_some h.slots fun d _ s haligned => slotFor_some haligned.typed
  have hname := h.name
  obtain ⟨sequence, nested, name, slots⟩ := g
  dsimp only at hslots hsame hname
  simp only [groupFor, Option.getD_some, hslots, hsame, hname]

/-- Bindings in line stay as they are, and there is nothing to report. -/
theorem reconcile_of_aligned (hroot : ∀ r ∈ root.targets, r.sequence.registry.Tidy)
    (h : b.Aligned root) :
    (b.reconcile root).bindings = b ∧ (b.reconcile root).report.isUnchanged = true := by
  obtain ⟨hgroups, hreport⟩ := reconcile_eq b root
  have hallot : allotGroups root.targets b.groups = (b.groups.map some, []) := by
    rw [allotGroups, ← h.keys]
    exact allot_map_key (h.keys ▸ root.nodup_targets)
  rw [hallot] at hgroups hreport
  constructor
  · obtain ⟨groups⟩ := b
    have hsame : List.zipWith groupFor root.targets (groups.map some) = groups :=
      zipWith_map_some h fun r hr g haligned => groupFor_of_aligned (hroot r hr) haligned
    rw [hsame] at hgroups
    exact congrArg Bindings.mk hgroups
  · rw [hreport]
    refine ⟨rfl, List.forall₂_map_right_iff.mpr (List.Forall₂.imp ?_ h)⟩
    exact fun r g haligned => ⟨g, rfl, haligned.slotsFit⟩

/-! ### The report -/

/-- The bindings have groups and slots for all that is there and for nothing else, in any order, and
no slot holds a value of another kind. -/
structure Fits (b : Bindings) (root : Sequence H) : Prop where
  groups : (b.groups.map Group.key).Perm (root.targets.map Reached.key)
  slots : ∀ r ∈ root.targets, ∀ g ∈ b.groups, g.key = r.key →
    SlotsFit r.sequence.registry g.slots

/-- The old groups in the order of the occurrences, if each occurrence has one and no other has. -/
theorem exists_groups (h : (b.groups.map Group.key).Perm (root.targets.map Reached.key)) :
    ∃ old : List Group, allotGroups root.targets b.groups = (old.map some, []) ∧
      old.Perm b.groups ∧ List.Forall₂ (fun r g => g.key = r.key) root.targets old := by
  obtain ⟨old, hallot, hperm, hkeys⟩ := allot_of_perm h
  exact ⟨old, hallot, hperm, map_eq_map_iff_forall₂.mp hkeys⟩

/-- **The report.** There is nothing to report exactly if the bindings did fit. -/
theorem isUnchanged_iff_fits (b : Bindings) (root : Sequence H) :
    (b.reconcile root).report.isUnchanged = true ↔ b.Fits root := by
  rw [(reconcile_eq b root).2]
  constructor
  · rintro ⟨hleft, hfits⟩
    have hall : none ∉ (allotGroups root.targets b.groups).1 := fun hmem => by
      obtain ⟨r, -, g, hfound, -⟩ := exists_of_forall₂ hfits hmem
      cases hfound
    have hkeys := allot_complete_iff.mp ⟨hall, hleft⟩
    obtain ⟨old, hallot, hperm, hold⟩ := exists_groups hkeys
    rw [hallot, List.forall₂_map_right_iff] at hfits
    refine ⟨hkeys, fun r hr g hg hkey => ?_⟩
    -- The key of the group tells which occurrence took it up.
    obtain ⟨r', hr', hkey', g', heq, hslots⟩ :=
      exists_of_forall₂ (forall₂_and hold hfits) (hperm.mem_iff.mpr hg)
    obtain rfl := Option.some.inj heq
    obtain rfl := List.inj_on_of_nodup_map root.nodup_targets hr hr' (hkey.symm.trans hkey')
    exact hslots
  · rintro ⟨hkeys, hslots⟩
    obtain ⟨old, hallot, hperm, hold⟩ := exists_groups hkeys
    rw [hallot, List.forall₂_map_right_iff]
    exact ⟨rfl, forall₂_of_mem hold fun r hr g hg hkey =>
      ⟨g, rfl, hslots r hr g (hperm.mem_iff.mp hg) hkey⟩⟩

theorem perm_groupFor {r : Reached H} {g : Group} (h : SlotsFit r.sequence.registry g.slots) :
    (groupFor r (some g)).slots.Perm g.slots := by
  obtain ⟨slots, hallot, hperm, hkeys⟩ := allot_of_perm h.keys
  have hsame : List.zipWith slotFor r.sequence.registry (slots.map some) = slots := by
    refine zipWith_map_some (R := fun _ s => s.value.type = s.type) ?_ fun d _ s => slotFor_some
    exact forall₂_of_mem (map_eq_map_iff_forall₂.mp hkeys) fun d _ s hs _ =>
      h.typed s (hperm.mem_iff.mp hs)
  have hslots : (groupFor r (some g)).slots
      = List.zipWith slotFor r.sequence.registry (allotSlots r.sequence.registry g.slots).1 := rfl
  rw [hslots, allotSlots, hallot, hsame]
  exact hperm

/-- If there is nothing to report, then every slot is there as it was before. -/
theorem perm_of_isUnchanged (h : (b.reconcile root).report.isUnchanged = true) :
    ∃ old : List Group, old.Perm b.groups ∧
      List.Forall₂ (fun g g' => g'.key = g.key ∧ g'.slots.Perm g.slots) old
        (b.reconcile root).bindings.groups := by
  obtain ⟨hkeys, hslots⟩ := (isUnchanged_iff_fits b root).mp h
  obtain ⟨old, hallot, hperm, hold⟩ := exists_groups hkeys
  have hfits : List.Forall₂ (fun r g => SlotsFit r.sequence.registry g.slots) root.targets old :=
    forall₂_of_mem hold fun r hr g hg hkey => hslots r hr g (hperm.mem_iff.mp hg) hkey
  refine ⟨old, hperm, ?_⟩
  rw [(reconcile_eq b root).1, hallot]
  exact forall₂_zipWith_map_some hfits fun r g hg => ⟨rfl, perm_groupFor hg⟩

/-! ### The theorem -/

/-- **Reconciled bindings.** Whatever bindings there were: afterwards there is one group for each
address that the walk from the root comes by, as long as the sequence that it comes by first there
has override fields; the groups are in the order of these visits. Each has one slot for each entry
of the registry, in the order of the registry, with a value of the entry's kind. Another
reconciliation changes nothing. There is nothing to report exactly if the bindings had these
addresses before, each one once and in any order, and no value of the wrong kind; no slot has
changed then. -/
theorem reconcile_aligns (b : Bindings) (hroot : root.Authored) :
    let after := (b.reconcile root).bindings
    (after.groups.map Group.key = root.targets.map Reached.key ∧
      (after.groups.map Group.key).Nodup) ∧
    (root.targets.Sublist root.visits ∧
      (∀ r, r ∈ root.targets ↔
        root.visits.find? (·.key == r.key) = some r ∧ r.sequence.registry ≠ []) ∧
      ∀ r, r ∈ root.visits ↔ ∃ way : List (Reached H), way.head? = some ⟨root, .root⟩ ∧
        way.getLast? = some r ∧ way.IsChain Reached.Nests ∧ (way.map (·.sequence.id)).Nodup) ∧
    List.Forall₂ (fun r g =>
      g.slots.map Slot.key = r.sequence.registry.map Descriptor.key ∧
      (g.slots.map Slot.key).Nodup ∧ ∀ s ∈ g.slots, s.value.type = s.type)
      root.targets after.groups ∧
    ((after.reconcile root).bindings = after ∧
      (after.reconcile root).report.isUnchanged = true) ∧
    ((b.reconcile root).report.isUnchanged = true ↔ b.Fits root) ∧
    ((b.reconcile root).report.isUnchanged = true →
      ∃ old : List Group, old.Perm b.groups ∧
        List.Forall₂ (fun g g' => g'.key = g.key ∧ g'.slots.Perm g.slots) old after.groups) := by
  intro after
  have htidy := hroot.tidy
  have haligned : after.Aligned root := aligned_reconcile b htidy
  refine ⟨⟨haligned.keys, haligned.keys ▸ root.nodup_targets⟩,
    ⟨root.targets_sublist, fun r => Sequence.mem_targets_iff, fun r => Sequence.mem_visits_iff⟩, ?_,
    reconcile_of_aligned htidy haligned, isUnchanged_iff_fits b root, perm_of_isUnchanged⟩
  refine forall₂_of_mem haligned fun r hr g _ hg => ⟨hg.keys, ?_, hg.typed⟩
  rw [hg.keys]
  exact (htidy r hr).nodup

/-- Two lines of text. -/
def dialogue : Sequence Host.none :=
  (Sequence.new ⟨.ofNat 2⟩ "dialogue").author
    [.add ⟨.ofNat 1⟩ (.log (.new "Hello") .info), .add ⟨.ofNat 2⟩ (.log (.new "Goodbye") .info)]

/-- Two dialogues. -/
def comedy : Sequence Host.none :=
  (Sequence.new ⟨.ofNat 1⟩ "comedy").author
    [.add ⟨.ofNat 1⟩ (.nested dialogue ⟨.ofNat 3⟩ .once),
      .add ⟨.ofNat 2⟩ (.nested dialogue ⟨.ofNat 4⟩ .once)]

theorem authored_dialogue : dialogue.Authored := by
  have hfirst := (Sequence.Authored.new (H := Host.none) ⟨.ofNat 2⟩ "dialogue" false).edit
    (.add ⟨.ofNat 1⟩ (.log (.new "Hello") .info)) nofun
  exact hfirst.edit (.add ⟨.ofNat 2⟩ (.log (.new "Goodbye") .info)) nofun

theorem authored_comedy : comedy.Authored := by
  have hfirst := (Sequence.Authored.new (H := Host.none) ⟨.ofNat 1⟩ "comedy" false).edit
    (.add ⟨.ofNat 1⟩ (.nested dialogue ⟨.ofNat 3⟩ .once)) fun n hn => by
      obtain rfl := List.mem_singleton.mp hn
      exact authored_dialogue
  refine hfirst.edit (.add ⟨.ofNat 2⟩ (.nested dialogue ⟨.ofNat 4⟩ .once)) fun n hn => ?_
  rcases List.mem_pair.mp hn with rfl | rfl
  · exact authored_dialogue
  · exact authored_dialogue

/-- Bindings of the second dialogue, with a slot too many and a number for its second line. -/
def scribbled : Bindings where
  groups := [
    { sequence := ⟨.ofNat 2⟩
      nested := ⟨.ofNat 4⟩
      slots := [
        ⟨⟨1⟩, .string, true, .int 7⟩,
        ⟨⟨0⟩, .string, true, .string "Hi"⟩,
        ⟨⟨0⟩, .string, true, .string "Hey"⟩] }]

/-- Both dialogues of the comedy get a group, in their order; what was scribbled counts as one group
and two slots that were missing, a slot too many and one of the wrong kind. -/
theorem reconcile_aligns_comedy :
    comedy.Authored ∧
    let after := (scribbled.reconcile comedy).bindings
    after.groups.map Group.key = [⟨⟨.ofNat 2⟩, ⟨.ofNat 3⟩⟩, ⟨⟨.ofNat 2⟩, ⟨.ofNat 4⟩⟩] ∧
    (∀ g ∈ after.groups, g.slots.map Slot.key = [⟨⟨0⟩, .string⟩, ⟨⟨1⟩, .string⟩] ∧
      ∀ s ∈ g.slots, s.value.type = s.type) ∧
    (after.reconcile comedy).bindings = after ∧
    (scribbled.reconcile comedy).report =
      { groupsAdded := 1, slotsAdded := 2, slotsRemoved := 1, slotsReset := 1 } ∧
    ¬ scribbled.Fits comedy := by
  obtain ⟨⟨hkeys, -⟩, -, hslots, ⟨hagain, -⟩, hreport, -⟩ :=
    reconcile_aligns scribbled authored_comedy
  have htargets : comedy.targets.map Reached.key
      = [⟨⟨.ofNat 2⟩, ⟨.ofNat 3⟩⟩, ⟨⟨.ofNat 2⟩, ⟨.ofNat 4⟩⟩] := by decide +kernel
  have hregistry : comedy.targets.map (fun r => r.sequence.registry.map Descriptor.key)
      = List.replicate 2 [⟨⟨0⟩, .string⟩, ⟨⟨1⟩, .string⟩] := by decide +kernel
  have hcounts : (scribbled.reconcile comedy).report =
      { groupsAdded := 1, slotsAdded := 2, slotsRemoved := 1, slotsReset := 1 } := by
    decide +kernel
  refine ⟨authored_comedy, hkeys.trans htargets, fun g hg => ?_, hagain, hcounts, ?_⟩
  · obtain ⟨r, hr, hsame, -, htyped⟩ := exists_of_forall₂ hslots hg
    have hmem := List.mem_map_of_mem (f := fun r => r.sequence.registry.map Descriptor.key) hr
    rw [hregistry] at hmem
    exact ⟨hsame.trans (List.eq_of_mem_replicate hmem), htyped⟩
  · rw [← hreport, hcounts]
    decide

end Bindings

end Sequencer
