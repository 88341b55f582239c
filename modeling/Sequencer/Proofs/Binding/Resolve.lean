import Sequencer.Proofs.Binding.Reconcile
import Sequencer.Proofs.Binding.Ron

/-!
# Sequencer.Proofs.Binding.Resolve

What a reconciliation does to the values that overrides resolve to.

An override resolves to what the first slot of the first group offers; a reconciliation takes up
some slot of some group, since what is left over moves around in its lists. Both are offers
(`Offers`), so that the value stays if all offers agree (`resolve_reconcile`). If they do not, it
need not (`resolve_doubled`).
-/

namespace Sequencer

variable {H : Host}

/-- The value of a field, given the slot that it has. -/
def Field.valueOf (field : Field Value) (found : Option Slot) : Value :=
  ((found.filter (·.enabled)).bind fun s => s.value.ofType? field.value.type).getD field.value

namespace Bindings

/-- The slots that bindings have for a field of an occurrence, or nothing. -/
def Offers (b : Bindings) (o : Occurrence) (key : OverrideKey) (found : Option Slot) : Prop :=
  ∃ group, Answers Group.key b.groups o group ∧
    Answers Slot.key ((group.map (·.slots)).getD []) key found

theorem Offers.key_eq {b : Bindings} {o : Occurrence} {key : OverrideKey} {found : Option Slot}
    (h : b.Offers o key found) : ∀ s, found = some s → s.key = key := by
  obtain ⟨_, -, hfound⟩ := h
  exact hfound.key_eq

/-- All that bindings have for a field comes to one value. -/
def Agrees (b : Bindings) (o : Occurrence) (key : OverrideKey) (field : Field Value) : Prop :=
  ∀ found found', b.Offers o key found → b.Offers o key found' →
    field.valueOf found = field.valueOf found'

/-- Bindings without doubles agree. -/
theorem agrees_of_unique {b : Bindings} {o : Occurrence} {key : OverrideKey}
    (hgroups : ∀ g ∈ b.groups, ∀ g' ∈ b.groups, g.key = o → g'.key = o → g = g')
    (hslots : ∀ g ∈ b.groups, g.key = o → ∀ s ∈ g.slots, ∀ s' ∈ g.slots,
      s.key = key → s'.key = key → s = s') (field : Field Value) : b.Agrees o key field := by
  rintro found found' ⟨group, hgroup, hfound⟩ ⟨group', hgroup', hfound'⟩
  obtain rfl := hgroup.unique hgroups hgroup'
  congr 1
  refine hfound.unique ?_ hfound'
  cases hgroup with
  | missing _ => simp
  | found hg hkey => exact hslots _ hg hkey

theorem resolveValue_eq (b : Bindings) {field : Field Value} {index : OverrideIndex}
    (h : field.index = some index) (o : Occurrence) :
    b.resolveValue field o
      = field.valueOf ((b.group? o).bind (·.slot? index field.value.type)) := by
  rw [resolveValue, h]
  rfl

theorem slot?_eq (g : Group) (index : OverrideIndex) (type : ValueType) :
    g.slot? index type = g.slots.find? (·.key == ⟨index, type⟩) := by
  rw [Group.slot?]
  congr 1
  funext s
  rw [Bool.eq_iff_iff, beq_iff_eq, Slot.key, OverrideKey.mk.injEq, Slot.isFor, Bool.and_eq_true,
    beq_iff_eq, beq_iff_eq]

/-- The first group and its first slot are an offer. -/
theorem offers_first (b : Bindings) (o : Occurrence) (index : OverrideIndex) (type : ValueType) :
    b.Offers o ⟨index, type⟩ ((b.group? o).bind (·.slot? index type)) := by
  refine ⟨b.group? o, answers_find? Group.key b.groups o, ?_⟩
  cases b.group? o with
  | none => exact .missing (by simp)
  | some g =>
      rw [Option.bind_some, slot?_eq]
      exact answers_find? Slot.key g.slots ⟨index, type⟩

/-- The slot that a reconciliation makes of an old one comes to the same value. -/
theorem valueOf_slotFor {d : Descriptor} {field : Field Value} (hd : d.type = field.value.type)
    {found : Option Slot} (hkey : ∀ s, found = some s → s.key = d.key) :
    field.valueOf (some (slotFor d found)) = field.valueOf found := by
  cases found with
  | none => rfl
  | some s =>
      by_cases htyped : s.value.type = s.type
      · rw [slotFor_some htyped]
      · have htype : s.type = field.value.type :=
          (congrArg OverrideKey.type (hkey s rfl)).trans hd
        have hnone : s.value.ofType? field.value.type = none :=
          if_neg fun heq => htyped (heq.trans htype.symm)
        have hreset : field.valueOf (some (slotFor d (some s))) = field.value := by
          rw [slotFor_mistyped htyped]
          rfl
        rw [hreset, Field.valueOf]
        cases henabled : s.enabled with
        | false => simp [Option.filter, henabled]
        | true => simp [Option.filter, henabled, hnone]

/-- What reconciled bindings have for a field is one slot, made of something that the bindings had
for it before. -/
theorem offers_of_reconcile (b : Bindings) {root : Sequence H} {r : Reached H}
    (hr : r ∈ root.targets) (htidy : r.sequence.registry.Tidy) {d : Descriptor}
    (hd : d ∈ r.sequence.registry) :
    ∃ found, b.Offers r.key d.key found ∧
      ∀ found', (b.reconcile root).bindings.Offers r.key d.key found' →
        found' = some (slotFor d found) := by
  -- The group beside `r` is made of what the old groups have for it, and so is the slot beside `d`.
  have hgroups : List.Forall₂
      (fun r g => ∃ found, Answers Group.key b.groups r.key found ∧ g = groupFor r found)
      root.targets (b.reconcile root).bindings.groups := by
    rw [(reconcile_eq b root).1]
    exact forall₂_zipWith (List.forall₂_map_left_iff.mp (answers_allot root.nodup_targets))
      fun r _ found hfound => ⟨found, hfound, rfl⟩
  obtain ⟨_, ⟨group, hgroup, rfl⟩, hfilter⟩ := filter_of_forall₂ hgroups (by
    rintro r _ ⟨found, hfound, rfl⟩
    exact key_groupFor hfound.key_eq) root.nodup_targets hr
  let slots := (group.getD { sequence := r.sequence.id, nested := r.nested }).slots
  have hslots : List.Forall₂
      (fun d s => ∃ found, Answers Slot.key slots d.key found ∧ s = slotFor d found)
      r.sequence.registry (groupFor r group).slots :=
    forall₂_zipWith (List.forall₂_map_left_iff.mp (answers_allot htidy.nodup))
      fun d _ found hfound => ⟨found, hfound, rfl⟩
  obtain ⟨_, ⟨found, hfound, rfl⟩, hfilter'⟩ := filter_of_forall₂ hslots (by
    rintro d _ ⟨found, hfound, rfl⟩
    exact key_slotFor hfound.key_eq) htidy.nodup hd
  refine ⟨found, ⟨group, hgroup, ?_⟩, fun found' ⟨group', hgroup', hfound'⟩ => ?_⟩
  · cases group with
    | none => exact hfound
    | some g => exact hfound
  · obtain rfl := hgroup'.eq_some hfilter
    exact hfound'.eq_some hfilter'

/-- A reconciliation takes up an offer. -/
theorem offers_reconcile (b : Bindings) {root : Sequence H} {r : Reached H} (hr : r ∈ root.targets)
    (htidy : r.sequence.registry.Tidy) {d : Descriptor} (hd : d ∈ r.sequence.registry) :
    ∃ found, b.Offers r.key d.key found ∧
      ((b.reconcile root).bindings.group? r.key).bind (·.slot? d.index d.type)
        = some (slotFor d found) := by
  obtain ⟨found, hfound, hunique⟩ := offers_of_reconcile b hr htidy hd
  exact ⟨found, hfound, hunique _ (offers_first _ r.key d.index d.type)⟩

/-- **Reconciliation and resolution.** Let identifiers tell the reachable sequences apart. After a
reconciliation a declared field of a reachable occurrence resolves to what the bindings had to offer
for it before, be it the slot that it did resolve to or another one with its address. So if all that
they had comes to one value, in particular if there are no doubles, then the value stays. -/
theorem resolve_reconcile (b : Bindings) {root : Sequence H} (hroot : root.Authored)
    (hids : root.DistinctIds) {r : Reached H} (hr : root.Reaches r) {c : Registry.Claim}
    (hc : c ∈ Sequence.claims r.sequence.nodes) :
    let field := c.declaration.field
    let after := (b.reconcile root).bindings
    ∃ index, field.index = some index ∧
      (∃ found, b.Offers r.key ⟨index, field.value.type⟩ found ∧
        after.resolveValue field r.key = field.valueOf found) ∧
      (b.Agrees r.key ⟨index, field.value.type⟩ field →
        after.resolveValue field r.key = b.resolveValue field r.key ∧
        ∀ (α : Type) [ValueKind α] (typed : Field α), typed.toDynamic = field →
          after.resolve typed r.key = b.resolve typed r.key) ∧
      ((∀ g ∈ b.groups, ∀ g' ∈ b.groups, g.key = r.key → g'.key = r.key → g = g') →
        (∀ g ∈ b.groups, g.key = r.key → ∀ s ∈ g.slots, ∀ s' ∈ g.slots,
          s.key = ⟨index, field.value.type⟩ → s'.key = ⟨index, field.value.type⟩ → s = s') →
        b.Agrees r.key ⟨index, field.value.type⟩ field) := by
  intro field after
  obtain ⟨d, hd, hindex, htype, -⟩ := (hroot.of_reaches hr).inSync.exists_entry hc
  have htarget : r ∈ root.targets := hr.mem_targets hids (List.ne_nil_of_mem hd)
  obtain ⟨found, hoffers, hslot⟩ := offers_reconcile b htarget (hroot.tidy r htarget) hd
  have hafter : after.resolveValue field r.key = field.valueOf found := by
    rw [resolveValue_eq after hindex, ← htype, hslot, valueOf_slotFor htype hoffers.key_eq]
  have hkey : d.key = ⟨d.index, field.value.type⟩ := by rw [Descriptor.key, htype]
  rw [hkey] at hoffers
  refine ⟨d.index, hindex, ⟨found, hoffers, hafter⟩, fun hagrees => ?_,
    fun hgroups hslots => agrees_of_unique hgroups hslots field⟩
  have hvalue : after.resolveValue field r.key = b.resolveValue field r.key := by
    rw [hafter, resolveValue_eq b hindex]
    exact hagrees _ _ hoffers (offers_first b r.key d.index field.value.type)
  refine ⟨hvalue, fun α _ typed htyped => ?_⟩
  rw [resolve, resolve, htyped, hvalue]

theorem reaches_dialogue {r : Reached Host.none} (h : dialogue.Reaches r) :
    r = ⟨dialogue, .root⟩ := by
  induction h with
  | refl => rfl
  | tail _ hnests ih =>
      subst ih
      cases hnests

theorem distinctIds_dialogue : dialogue.DistinctIds := by
  intro r q hr hq _
  rw [reaches_dialogue hr, reaches_dialogue hq]

/-- The second line of a dialogue, as its node declares it. -/
def goodbye : Registry.Claim := ⟨⟨.ofNat 2⟩, ⟨"Message", ⟨some ⟨1⟩, .string "Goodbye"⟩⟩⟩

theorem mem_claims_goodbye : goodbye ∈ Sequence.claims dialogue.nodes :=
  .tail _ (.head _)

/-- Bindings of a dialogue with a slot for its first line and one for its second. -/
def polite : Bindings where
  groups := [
    { sequence := dialogue.id
      nested := .root
      slots := [
        ⟨⟨1⟩, .string, true, .string "Farewell"⟩,
        ⟨⟨0⟩, .string, false, .string "Hello"⟩] }]

/-- The line is still overridden after the slots were put in order. -/
theorem resolve_reconcile_polite :
    dialogue.Authored ∧ dialogue.DistinctIds ∧ dialogue.Reaches ⟨dialogue, .root⟩ ∧
    goodbye ∈ Sequence.claims dialogue.nodes ∧
    polite.Agrees ⟨dialogue.id, .root⟩ ⟨⟨1⟩, .string⟩ goodbye.declaration.field ∧
    (polite.reconcile dialogue).bindings.resolveValue goodbye.declaration.field
      ⟨dialogue.id, .root⟩ = .string "Farewell" := by
  have hroot : dialogue.Reaches ⟨dialogue, .root⟩ := .refl
  obtain ⟨index, hindex, -, hagrees, hunique⟩ := resolve_reconcile polite authored_dialogue
    distinctIds_dialogue hroot mem_claims_goodbye
  obtain rfl : ⟨1⟩ = index := Option.some.inj hindex
  have honce : polite.Agrees ⟨dialogue.id, .root⟩ ⟨⟨1⟩, .string⟩ goodbye.declaration.field := by
    refine hunique ?_ ?_
    · simp [polite]
    · simp [polite, Slot.key]
  have hbefore : polite.resolveValue goodbye.declaration.field ⟨dialogue.id, .root⟩
      = .string "Farewell" := by decide +kernel
  exact ⟨authored_dialogue, distinctIds_dialogue, hroot, mem_claims_goodbye, honce,
    (hagrees honce).1.trans hbefore⟩

/-- Bindings of a dialogue with two slots for its second line. -/
def doubled : Bindings where
  groups := [
    { sequence := dialogue.id
      nested := .root
      slots := [
        ⟨⟨0⟩, .string, false, .string "Hello"⟩,
        ⟨⟨1⟩, .string, true, .string "Farewell"⟩,
        ⟨⟨1⟩, .string, true, .string "So long"⟩] }]

/-- There is a text that is read as these bindings. -/
theorem exists_ofRon_doubled : ∃ text, ofRon Ron.standard Uuid.standard text = .ok doubled := by
  have hcarries : (coding Uuid.standard).Carries doubled :=
    carries Uuid.lawful_standard (by decide)
  obtain ⟨text, -, hparse⟩ :=
    Ron.Coding.exists_print Ron.lawful_standard (readable_coding _) hcarries false
  exact ⟨text, by rw [ofRon, hparse]⟩

/-- **Doubles.** The last slot moves to the front when the first one is taken, so that another slot
is first for the second line: it was overridden by one text, and now is by the other. -/
theorem resolve_doubled :
    (∃ text, ofRon Ron.standard Uuid.standard text = .ok doubled) ∧
    dialogue.Authored ∧ dialogue.DistinctIds ∧
    dialogue.Reaches ⟨dialogue, .root⟩ ∧ goodbye ∈ Sequence.claims dialogue.nodes ∧
    doubled.resolveValue goodbye.declaration.field ⟨dialogue.id, .root⟩ = .string "Farewell" ∧
    (doubled.reconcile dialogue).bindings.resolveValue goodbye.declaration.field
      ⟨dialogue.id, .root⟩ = .string "So long" :=
  ⟨exists_ofRon_doubled, authored_dialogue, distinctIds_dialogue, .refl, mem_claims_goodbye,
    by decide +kernel, by decide +kernel⟩

end Bindings

end Sequencer
