import Sequencer.Proofs.Binding.Resolve

/-!
# Sequencer.Proofs.Binding.Address

What bindings that are in line with a root sequence have for a field.

There is one group for the occurrence and one slot in it for the field, which decides what the field
resolves to (`Bindings.Aligned.governs`). An edit of a slot keeps the addresses and the kinds of all
slots, so that bindings stay in line (`Bindings.Aligned.modifySlot`).
`Bindings.setOverride_cases` and `Bindings.setEnabled_cases` say all that the two edits can do.
-/

namespace Sequencer

variable {H : Host}

namespace Bindings

/-! ### The slot of a field -/

/-- The bindings have one slot for a field of an occurrence. Its value replaces the template value
if it is enabled. -/
def Governs (b : Bindings) (o : Occurrence) (field : Field Value) : Prop :=
  ∃ index group slot, field.index = some index ∧
    b.groups.filter (·.key == o) = [group] ∧
    group.slots.filter (·.key == ⟨index, field.value.type⟩) = [slot] ∧
    b.resolveValue field o = if slot.enabled then slot.value else field.value

theorem valueOf_some {field : Field Value} {s : Slot} (h : s.value.type = field.value.type) :
    field.valueOf (some s) = if s.enabled then s.value else field.value := by
  have hvalue : s.value.ofType? field.value.type = some s.value := if_pos h
  cases henabled : s.enabled with
  | false => simp [Field.valueOf, Option.filter, henabled]
  | true => simp [Field.valueOf, Option.filter, henabled, hvalue]

/-- **One slot for each field.** Let identifiers tell the reachable sequences apart. Then bindings
in line have one slot for each field that a node of a reachable occurrence declares. -/
theorem Aligned.governs {b : Bindings} {root : Sequence H} (h : b.Aligned root)
    (hroot : root.Authored) (hids : root.DistinctIds) {r : Reached H} (hr : root.Reaches r)
    {c : Registry.Claim} (hc : c ∈ Sequence.claims r.sequence.nodes) :
    b.Governs r.key c.declaration.field := by
  obtain ⟨d, hd, hindex, htype, -⟩ := (hroot.of_reaches hr).inSync.exists_entry hc
  have htarget : r ∈ root.targets := hr.mem_targets hids (List.ne_nil_of_mem hd)
  obtain ⟨g, hg, hgroup⟩ := filter_of_forall₂ h (fun _ _ haligned => haligned.key)
    root.nodup_targets htarget
  obtain ⟨s, hs, hslot⟩ := filter_of_forall₂ hg.slots (fun _ _ haligned => haligned.key)
    (hroot.tidy r htarget).nodup hd
  rw [Descriptor.key, htype] at hslot
  have hgroup? : b.group? r.key = some g := by
    change b.groups.find? (·.key == r.key) = some g
    rw [← List.head?_filter, hgroup, List.head?_cons]
  have hslot? : g.slot? d.index c.declaration.field.value.type = some s := by
    rw [slot?_eq, ← List.head?_filter, hslot, List.head?_cons]
  have hsort : s.type = c.declaration.field.value.type :=
    (congrArg OverrideKey.type hs.key).trans htype
  refine ⟨d.index, g, s, hindex, hgroup, hslot, ?_⟩
  rw [resolveValue_eq b hindex, hgroup?, Option.bind_some, hslot?]
  exact valueOf_some (hs.typed.trans hsort)

/-! ### Edits -/

theorem forall₂_modifyFirst {α β : Type} {R : α → β → Prop} {p : β → Bool} {f : β → β}
    {xs : List α} {ys : List β} (h : List.Forall₂ R xs ys)
    (hf : ∀ x y, ys.find? p = some y → R x y → R x (f y)) :
    List.Forall₂ R xs (modifyFirst p f ys) := by
  induction h with
  | nil => exact .nil
  | @cons x y xs ys hxy hrest ih =>
      rw [modifyFirst]
      cases hp : p y with
      | true =>
          rw [if_pos rfl]
          exact .cons (hf x y (List.find?_cons_of_pos hp) hxy) hrest
      | false =>
          rw [if_neg Bool.false_ne_true]
          refine .cons hxy (ih fun x' y' hfind => hf x' y' ?_)
          rw [List.find?_cons_of_neg (by simp [hp]), hfind]

/-- Changing the first that satisfies a condition twice is changing it once, if it satisfies the
condition in between. -/
theorem modifyFirst_modifyFirst {α : Type} {p : α → Bool} {f g : α → α}
    (hf : ∀ a, p a = true → p (f a) = true) (xs : List α) :
    modifyFirst p g (modifyFirst p f xs) = modifyFirst p (fun a => g (f a)) xs := by
  induction xs with
  | nil => rfl
  | cons x xs ih =>
      simp only [modifyFirst]
      by_cases hp : p x = true
      · rw [if_pos hp, if_pos hp, modifyFirst, if_pos (hf x hp)]
      · rw [if_neg hp, if_neg hp, modifyFirst, if_neg hp, ih]

variable {b : Bindings} {o : Occurrence} {index : OverrideIndex}

theorem modifySlot_modifySlot (b : Bindings) (o : Occurrence) (index : OverrideIndex)
    {f g : Slot → Slot} (hf : ∀ s, (f s).index = s.index) :
    (b.modifySlot o index f).modifySlot o index g = b.modifySlot o index fun s => g (f s) := by
  have hslots : ∀ slots : List Slot,
      modifyFirst (·.index == index) g (modifyFirst (·.index == index) f slots)
        = modifyFirst (·.index == index) (fun s => g (f s)) slots :=
    modifyFirst_modifyFirst fun s hs => by rwa [hf]
  simp only [modifySlot]
  rw [modifyFirst_modifyFirst]
  · simp only [hslots]
  -- what a group is for does not depend on its slots
  · exact fun _ hg => hg

/-- The slot that an edit finds. -/
def slotByIndex? (b : Bindings) (o : Occurrence) (index : OverrideIndex) : Option Slot :=
  (b.group? o).bind fun group => group.slots.find? (·.index == index)

namespace Editing

variable {α β : Type} {b b' : Bindings} {x : Editing α} {f : α → Editing β}

theorem run_bind_ok {a : α} (h : x.run.run b = (.ok a, b')) :
    (x >>= f).run.run b = (f a).run.run b' := by
  rw [ExceptT.run_bind, StateT.run_bind, h]
  rfl

theorem run_bind_error {e : BindingError} (h : x.run.run b = (.error e, b')) :
    (x >>= f).run.run b = (.error e, b') := by
  rw [ExceptT.run_bind, StateT.run_bind, h]
  rfl

/-- A slot is looked for in the group of the occurrence, and nothing changes. -/
theorem slotByIndex_cases (b : Bindings) (o : Occurrence) (index : OverrideIndex) :
    b.group? o = none ∧ (slotByIndex o index).run.run b = (.error (.groupNotFound o), b) ∨
    ∃ group, b.group? o = some group ∧
      (group.slots.find? (·.index == index) = none ∧
          (slotByIndex o index).run.run b = (.error (.slotNotFound index), b) ∨
        ∃ slot, group.slots.find? (·.index == index) = some slot ∧
          (slotByIndex o index).run.run b = (.ok slot, b)) := by
  have hget : (get : Editing Bindings).run.run b = (.ok b, b) := rfl
  rw [slotByIndex, run_bind_ok hget]
  cases hgroup : b.group? o with
  | none => exact .inl ⟨rfl, rfl⟩
  | some group =>
      refine .inr ⟨group, rfl, ?_⟩
      dsimp only
      cases hslot : group.slots.find? (·.index == index) with
      | none => exact .inl ⟨rfl, rfl⟩
      | some slot => exact .inr ⟨slot, rfl, rfl⟩

end Editing

/-- **What becomes of a value that is to be bound.** The edit is refused for want of a group, of a
slot or of the kind, and then it has changed nothing; or the slot holds the value and is enabled. -/
theorem setOverride_cases (b : Bindings) (o : Occurrence) (index : OverrideIndex) (v : Value) :
    b.group? o = none ∧ b.setOverride o index v = (.error (.groupNotFound o), b) ∨
    ∃ group, b.group? o = some group ∧
      (group.slots.find? (·.index == index) = none ∧
          b.setOverride o index v = (.error (.slotNotFound index), b) ∨
        ∃ slot, group.slots.find? (·.index == index) = some slot ∧
          (slot.type ≠ v.type ∧
              b.setOverride o index v = (.error (.typeMismatch index slot.type v.type), b) ∨
            slot.type = v.type ∧
              b.setOverride o index v
                = (.ok (), b.modifySlot o index ({ · with value := v, enabled := true })))) := by
  rw [setOverride, Editing.setOverride]
  rcases Editing.slotByIndex_cases b o index with ⟨hgroup, hrun⟩ | ⟨group, hgroup, hslots⟩
  · exact .inl ⟨hgroup, Editing.run_bind_error hrun⟩
  refine .inr ⟨group, hgroup, ?_⟩
  rcases hslots with ⟨hslot, hrun⟩ | ⟨slot, hslot, hrun⟩
  · exact .inl ⟨hslot, Editing.run_bind_error hrun⟩
  refine .inr ⟨slot, hslot, ?_⟩
  rw [Editing.run_bind_ok hrun]
  by_cases htype : slot.type = v.type
  · refine .inr ⟨htype, ?_⟩
    rw [if_neg (not_not_intro htype)]
    -- the value is bound first, and the slot enabled then
    exact congrArg (Except.ok (), ·) (modifySlot_modifySlot b o index fun _ => rfl)
  · refine .inl ⟨htype, ?_⟩
    rw [if_pos htype]
    rfl

/-- A value is bound in the slot that is found, which is for its kind, or nothing has changed. -/
theorem setOverride_ok_or (b : Bindings) (o : Occurrence) (index : OverrideIndex) (v : Value) :
    (∃ e, b.setOverride o index v = (.error e, b)) ∨
    ∃ slot, b.slotByIndex? o index = some slot ∧ slot.type = v.type ∧
      b.setOverride o index v
        = (.ok (), b.modifySlot o index ({ · with value := v, enabled := true })) := by
  rcases b.setOverride_cases o index v with
    ⟨-, heq⟩ | ⟨group, hgroup, ⟨-, heq⟩ | ⟨slot, hslot, ⟨-, heq⟩ | ⟨htype, heq⟩⟩⟩
  · exact .inl ⟨_, heq⟩
  · exact .inl ⟨_, heq⟩
  · exact .inl ⟨_, heq⟩
  · have hfound : b.slotByIndex? o index = some slot := by rw [slotByIndex?, hgroup]; exact hslot
    exact .inr ⟨slot, hfound, htype, heq⟩

/-- A refused edit leaves the bindings as they were. -/
theorem unchanged_of_setOverride {b' : Bindings} {v : Value} {e : BindingError}
    (h : b.setOverride o index v = (.error e, b')) : b' = b := by
  rcases b.setOverride_ok_or o index v with ⟨e', heq⟩ | ⟨slot, -, -, heq⟩
  · exact (congrArg Prod.snd (heq.symm.trans h)).symm
  · cases congrArg Prod.fst (heq.symm.trans h)

/-- **What becomes of a slot that is to be enabled or disabled.** The edit is refused for want of a
group or of a slot, and then it has changed nothing. -/
theorem setEnabled_cases (b : Bindings) (o : Occurrence) (index : OverrideIndex) (enabled : Bool) :
    (b.slotByIndex? o index = none ∧ ∃ e, b.setEnabled o index enabled = (.error e, b)) ∨
    ∃ slot, b.slotByIndex? o index = some slot ∧
      b.setEnabled o index enabled = (.ok (), b.modifySlot o index ({ · with enabled })) := by
  rw [setEnabled, Editing.setEnabled, slotByIndex?]
  rcases Editing.slotByIndex_cases b o index with ⟨hgroup, hrun⟩ | ⟨group, hgroup, hslots⟩
  · exact .inl ⟨by rw [hgroup]; rfl, _, Editing.run_bind_error hrun⟩
  rw [hgroup, Option.bind_some]
  rcases hslots with ⟨hslot, hrun⟩ | ⟨slot, hslot, hrun⟩
  · exact .inl ⟨hslot, _, Editing.run_bind_error hrun⟩
  · exact .inr ⟨slot, hslot, by rw [Editing.run_bind_ok hrun]; rfl⟩

theorem unchanged_of_setEnabled {b' : Bindings} {enabled : Bool} {e : BindingError}
    (h : b.setEnabled o index enabled = (.error e, b')) : b' = b := by
  rcases b.setEnabled_cases o index enabled with ⟨-, e', heq⟩ | ⟨slot, -, heq⟩
  · exact (congrArg Prod.snd (heq.symm.trans h)).symm
  · cases congrArg Prod.fst (heq.symm.trans h)

/-! ### Edits of bindings in line -/

variable {root : Sequence H}

/-- A change of a slot that keeps its address, and after which it holds a value of its kind, keeps
bindings in line. -/
theorem Aligned.modifySlot (h : b.Aligned root) {slot : Slot}
    (hslot : b.slotByIndex? o index = some slot) {change : Slot → Slot}
    (hchange : slot.value.type = slot.type →
      (change slot).key = slot.key ∧ (change slot).value.type = (change slot).type) :
    (b.modifySlot o index change).Aligned root := by
  obtain ⟨group, hgroup, hslot⟩ := Option.bind_eq_some_iff.mp hslot
  refine forall₂_modifyFirst h fun r g hg haligned => ?_
  obtain rfl : group = g := Option.some.inj (hgroup.symm.trans hg)
  refine ⟨haligned.key, haligned.name, forall₂_modifyFirst haligned.slots fun d s hs hd => ?_⟩
  obtain rfl : slot = s := Option.some.inj (hslot.symm.trans hs)
  obtain ⟨hkey, htyped⟩ := hchange hd.typed
  exact ⟨hkey.trans hd.key, htyped⟩

theorem Aligned.setOverride (h : b.Aligned root) (o : Occurrence) (index : OverrideIndex)
    (value : Value) : (b.setOverride o index value).2.Aligned root := by
  rcases b.setOverride_ok_or o index value with ⟨e, heq⟩ | ⟨slot, hslot, htype, heq⟩
  · rwa [heq]
  · rw [heq]
    exact h.modifySlot hslot fun _ => ⟨rfl, htype.symm⟩

theorem Aligned.setEnabled (h : b.Aligned root) (o : Occurrence) (index : OverrideIndex)
    (enabled : Bool) : (b.setEnabled o index enabled).2.Aligned root := by
  rcases b.setEnabled_cases o index enabled with ⟨-, e, heq⟩ | ⟨slot, hslot, heq⟩
  · rwa [heq]
  · rw [heq]
    exact h.modifySlot hslot fun htyped => ⟨rfl, htyped⟩

end Bindings

end Sequencer
