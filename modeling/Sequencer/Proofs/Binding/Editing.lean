import Mathlib.Logic.Relation
import Sequencer.Proofs.Binding.Address
import Sequencer.Proofs.Player.Commands

/-!
# Sequencer.Proofs.Binding.Editing

Edits of overrides, and what fields resolve to afterwards.

An edit finds its slot by the index alone, a field finds its slot by the index and the kind of its
value. An edit that binds a value insists on the kind, so that the slot it has found is the one that
the field finds; and the slots that other fields find are left alone (`resolveValue_modifySlot`).
The first slot counts for both, so that this holds of any bindings.

Which edits are refused is another matter: a slot of the right kind may stand behind one of another
kind with the same index. In bindings that are in line with a sequence no two slots of a group have
the same index (`Aligned.eq_of_index_eq`). The theorem is `editing_agrees`.
-/

namespace Sequencer

open Relation

variable {H : Host}

/-! ### The first that satisfies a condition -/

section ModifyFirst

variable {α : Type} {p q : α → Bool} {f : α → α} {xs : List α} {a : α}

/-- What is changed first is also found first, by a condition that it satisfies now and that only
what could have been changed satisfies. -/
theorem find?_modifyFirst_of_pos (h : xs.find? p = some a) (hq : q (f a) = true)
    (honly : ∀ x, q x = true → p x = true) : (modifyFirst p f xs).find? q = some (f a) := by
  induction xs with
  | nil => cases h
  | cons x xs ih =>
      rw [modifyFirst]
      cases hp : p x with
      | true =>
          rw [List.find?_cons_of_pos hp] at h
          obtain rfl := Option.some.inj h
          rw [if_pos rfl]
          exact List.find?_cons_of_pos hq
      | false =>
          rw [List.find?_cons_of_neg (by simp [hp])] at h
          have hx : q x = false := Bool.eq_false_iff.mpr fun hqx => by simp [honly x hqx] at hp
          rw [if_neg Bool.false_ne_true, List.find?_cons_of_neg (by simp [hx])]
          exact ih h

/-- A condition that the changed element satisfies neither before nor after finds what it has
found. -/
theorem find?_modifyFirst_of_neg (h : xs.find? p = some a) (hq : q a = false)
    (hq' : q (f a) = false) : (modifyFirst p f xs).find? q = xs.find? q := by
  induction xs with
  | nil => cases h
  | cons x xs ih =>
      rw [modifyFirst]
      cases hp : p x with
      | true =>
          rw [List.find?_cons_of_pos hp] at h
          obtain rfl := Option.some.inj h
          rw [if_pos rfl, List.find?_cons, List.find?_cons, hq, hq']
      | false =>
          rw [List.find?_cons_of_neg (by simp [hp])] at h
          rw [if_neg Bool.false_ne_true, List.find?_cons, List.find?_cons, ih h]

end ModifyFirst

/-- Does the group have a slot with this index and of this kind? -/
def Group.Has (group : Group) (index : OverrideIndex) (type : ValueType) : Prop :=
  ∃ slot ∈ group.slots, slot.key = ⟨index, type⟩

namespace Bindings

/-! ### One edit -/

variable {b b' : Bindings} {o : Occurrence} {index : OverrideIndex} {slot : Slot}

/-- What bindings with a changed slot have for an occurrence. -/
theorem group?_modifySlot (hslot : b.slotByIndex? o index = some slot) (change : Slot → Slot) :
    ∃ group, b.group? o = some group ∧ group.slots.find? (·.index == index) = some slot ∧
      (b.modifySlot o index change).group? o = some { group with
        slots := modifyFirst (·.index == index) change group.slots } ∧
      ∀ o', o' ≠ o → (b.modifySlot o index change).group? o' = b.group? o' := by
  obtain ⟨group, hgroup, hslot⟩ := Option.bind_eq_some_iff.mp hslot
  have hfirst : b.groups.find? (·.isFor o) = some group := hgroup
  have hfor : group.isFor o = true := by simpa using List.find?_some hfirst
  refine ⟨group, hgroup, hslot, ?_, fun o' ho' => ?_⟩
  · exact find?_modifyFirst_of_pos hfirst hfor fun _ hg => hg
  · have hkey : group.key = o := beq_iff_eq.mp hfor
    have hother : group.isFor o' = false := by
      rw [Group.isFor, hkey]
      exact beq_false_of_ne ho'.symm
    exact find?_modifyFirst_of_neg hgroup hother hother

/-- A change of a slot that keeps its address decides what the slot's field resolves to, and leaves
all other fields alone. The slot is found again. -/
theorem resolveValue_modifySlot (hslot : b.slotByIndex? o index = some slot) (change : Slot → Slot)
    (hkey : (change slot).key = slot.key) :
    (b.modifySlot o index change).slotByIndex? o index = some (change slot) ∧
      ∀ (field : Field Value) (o' : Occurrence),
        (b.modifySlot o index change).resolveValue field o' =
        if o' = o ∧ field.index = some index ∧ field.value.type = slot.type
        then field.valueOf (some (change slot)) else b.resolveValue field o' := by
  obtain ⟨group, hgroup, hfind, hgroup', hother⟩ := group?_modifySlot hslot change
  have hindex : slot.index = index := by simpa using List.find?_some hfind
  have hindex' : (change slot).index = index := (congrArg OverrideKey.index hkey).trans hindex
  have htype' : (change slot).type = slot.type := congrArg OverrideKey.type hkey
  refine ⟨?_, fun field o' => ?_⟩
  · rw [slotByIndex?, hgroup']
    exact find?_modifyFirst_of_pos hfind (by simp [hindex']) fun _ hp => hp
  cases hfield : field.index with
  | none =>
      rw [if_neg (by simp)]
      simp [resolveValue, hfield]
  | some i =>
      rw [resolveValue_eq _ hfield, resolveValue_eq b hfield]
      by_cases ho : o' = o
      · subst ho
        rw [hgroup', hgroup]
        by_cases haddress : i = index ∧ field.value.type = slot.type
        · -- the first slot with the index is the first one of the address
          obtain ⟨rfl, htype⟩ := haddress
          have hfinds : (change slot).isFor i field.value.type = true := by
            simp [Slot.isFor, hindex', htype, htype']
          rw [if_pos ⟨rfl, rfl, htype⟩]
          refine congrArg field.valueOf (find?_modifyFirst_of_pos hfind hfinds fun s hs => ?_)
          exact (Bool.and_eq_true_iff.mp hs).1
        · have hpasses (s : Slot) (hi : s.index = index) (ht : s.type = slot.type) :
              s.isFor i field.value.type = false := by
            rw [Bool.eq_false_iff]
            intro hs
            obtain ⟨hsi, hst⟩ := Bool.and_eq_true_iff.mp hs
            exact haddress ⟨(beq_iff_eq.mp hsi).symm.trans hi, (beq_iff_eq.mp hst).symm.trans ht⟩
          rw [if_neg fun h => haddress ⟨Option.some.inj h.2.1, h.2.2⟩]
          exact congrArg field.valueOf (find?_modifyFirst_of_neg hfind (hpasses slot hindex rfl)
            (hpasses (change slot) hindex' htype'))
      · rw [hother o' ho, if_neg fun h => ho h.1]

/-! ### The two edits -/

/-- A value that is bound replaces the template value of its field. -/
theorem resolveValue_setOverride {v : Value} (h : b.setOverride o index v = (.ok (), b')) :
    ∃ slot, b'.slotByIndex? o index = some slot ∧ slot.value = v ∧ slot.type = v.type ∧
      ∀ (field : Field Value) (o' : Occurrence), b'.resolveValue field o' =
        if o' = o ∧ field.index = some index ∧ field.value.type = v.type then v
        else b.resolveValue field o' := by
  rcases b.setOverride_ok_or o index v with ⟨e, heq⟩ | ⟨slot, hslot, htype, heq⟩
  · cases congrArg Prod.fst (heq.symm.trans h)
  obtain rfl : _ = b' := congrArg Prod.snd (heq.symm.trans h)
  obtain ⟨hslot', hresolve⟩ := resolveValue_modifySlot hslot
    ({ · with value := v, enabled := true }) rfl
  refine ⟨_, hslot', rfl, htype, fun field o' => ?_⟩
  rw [hresolve, htype]
  refine ite_congr rfl (fun haddress => ?_) fun _ => rfl
  rw [valueOf_some haddress.2.2.symm, if_pos rfl]

/-- A slot that holds a value of its kind replaces the template value if it is enabled, and defers
to it if it is not. -/
theorem resolveValue_setEnabled (hslot : b.slotByIndex? o index = some slot)
    (htyped : slot.value.type = slot.type) (enabled : Bool) :
    ∃ b', b.setEnabled o index enabled = (.ok (), b') ∧
      b'.slotByIndex? o index = some { slot with enabled } ∧
      ∀ (field : Field Value) (o' : Occurrence), b'.resolveValue field o' =
        if o' = o ∧ field.index = some index ∧ field.value.type = slot.type
        then (if enabled then slot.value else field.value) else b.resolveValue field o' := by
  obtain ⟨hslot', hresolve⟩ := resolveValue_modifySlot hslot ({ · with enabled }) rfl
  rcases b.setEnabled_cases o index enabled with ⟨hnone, -⟩ | ⟨found, -, hok⟩
  · rw [hslot] at hnone
    cases hnone
  refine ⟨_, hok, hslot', fun field o' => ?_⟩
  rw [hresolve]
  refine ite_congr rfl (fun haddress => ?_) fun _ => rfl
  exact valueOf_some (s := { slot with enabled }) (htyped.trans haddress.2.2.symm)

/-! ### Typed fields -/

theorem type_resolveValue (b : Bindings) (field : Field Value) (o : Occurrence) :
    (b.resolveValue field o).type = field.value.type := by
  cases hindex : field.index with
  | none => simp [resolveValue, hindex]
  | some index =>
      rw [resolveValue_eq b hindex, Field.valueOf]
      generalize ((b.group? o).bind _).filter _ = found
      rcases found with _ | s
      · rfl
      · rw [Option.bind_some, Value.ofType?]
        split
        · rename_i htype
          exact htype
        · rfl

/-- A typed field resolves to what its dynamic form resolves to. -/
theorem toValue_resolve {α : Type} [ValueKind α] [LawfulValueKind α] (b : Bindings)
    (field : Field α) (o : Occurrence) :
    ValueKind.toValue (b.resolve field o) = b.resolveValue field.toDynamic o := by
  have htype : (b.resolveValue field.toDynamic o).type = ValueKind.type α :=
    (type_resolveValue b field.toDynamic o).trans (LawfulValueKind.type_toValue field.value)
  obtain ⟨a, ha⟩ := LawfulValueKind.exists_of_type _ htype
  rw [resolve, ← ha, LawfulValueKind.ofValue?_toValue]
  rfl

/-! ### Refusals -/

section InLine

variable {root : Sequence H} {group : Group}

theorem Aligned.amends (h : b.Aligned root) (hamends : b.Amends b') : b'.Aligned root := by
  cases hamends with
  | override o index value => exact h.setOverride o index value
  | enable o index enabled => exact h.setEnabled o index enabled

/-- In bindings that are in line with a sequence, the slots of a group are told apart by their
indices: those of a registry are handed out once, whatever the kinds of the fields. -/
theorem Aligned.eq_of_index_eq (h : b.Aligned root) (hroot : root.Authored)
    (hgroup : b.group? o = some group) (hslot : slot ∈ group.slots) (hslot' : slot' ∈ group.slots)
    (hindex : slot.index = slot'.index) : slot = slot' := by
  obtain ⟨r, hr, haligned⟩ := exists_of_forall₂ h (List.mem_of_find?_eq_some hgroup)
  obtain ⟨d, hd, hkey⟩ := exists_of_forall₂ haligned.slots hslot
  obtain ⟨d', hd', hkey'⟩ := exists_of_forall₂ haligned.slots hslot'
  have hreaches : root.Reaches r :=
    Sequence.reaches_of_mem_visits ((Sequence.targets_sublist root).subset hr)
  have hentry : d = d' := by
    refine (hroot.of_reaches hreaches).inSync.ascending.eq_of_index_eq hd hd' ?_
    calc d.index = slot.index := (congrArg OverrideKey.index hkey.key).symm
      _ = slot'.index := hindex
      _ = d'.index := congrArg OverrideKey.index hkey'.key
  have hnodup : (group.slots.map Slot.key).Nodup := by
    rw [haligned.keys]
    exact (hroot.tidy r hr).nodup
  refine List.inj_on_of_nodup_map hnodup hslot hslot' ?_
  rw [hkey.key, hkey'.key, hentry]

/-- In bindings in line, a value can be bound if there is a slot for it. Otherwise the refusal names
what is missing: the group, a slot with the index, or the kind. -/
theorem Aligned.setOverride_iff (h : b.Aligned root) (hroot : root.Authored) (o : Occurrence)
    (index : OverrideIndex) (v : Value) :
    ((b.setOverride o index v).1 = .ok () ↔
      ∃ group, b.group? o = some group ∧ group.Has index v.type) ∧
    ((b.setOverride o index v).1 = .error (.groupNotFound o) ↔ b.group? o = none) ∧
    ((b.setOverride o index v).1 = .error (.slotNotFound index) ↔
      ∃ group, b.group? o = some group ∧ ∀ type, ¬ group.Has index type) ∧
    ∀ type, (b.setOverride o index v).1 = .error (.typeMismatch index type v.type) ↔
      type ≠ v.type ∧ ∃ group, b.group? o = some group ∧ group.Has index type := by
  rcases b.setOverride_cases o index v with ⟨hgroup, heq⟩ | ⟨group, hgroup, hslots⟩
  · simp [hgroup, heq]
  rcases hslots with ⟨hnone, heq⟩ | ⟨slot, hfind, hedit⟩
  · have hnot : ∀ type, ¬ group.Has index type := by
      rintro type ⟨slot, hslot, hkey⟩
      have hindex : slot.index = index := congrArg OverrideKey.index hkey
      simpa [hindex] using List.find?_eq_none.mp hnone slot hslot
    simp [hgroup, heq, hnot]
  · have hslot : slot ∈ group.slots := List.mem_of_find?_eq_some hfind
    have hindex : slot.index = index := by simpa using List.find?_some hfind
    have hhas : ∀ type, group.Has index type ↔ slot.type = type := by
      intro type
      constructor
      · rintro ⟨slot', hslot', hkey⟩
        have hsame : slot = slot' := h.eq_of_index_eq hroot hgroup hslot hslot'
          (hindex.trans (congrArg OverrideKey.index hkey).symm)
        rw [hsame]
        exact congrArg OverrideKey.type hkey
      · rintro rfl
        exact ⟨slot, hslot, by rw [Slot.key, hindex]⟩
    rcases hedit with ⟨htype, heq⟩ | ⟨htype, heq⟩
    · simp [hgroup, heq, hhas, htype]
    · simpa [hgroup, heq, hhas, htype] using fun type (hne : ¬ type = v.type) => Ne.symm hne

end InLine

/-! ### The theorem -/

/-- **Edits agree with what fields resolve to.** Whatever the bindings: where a value was bound, a
field with this index and of the value's kind resolves to it at this occurrence, to its template
value once the slot is disabled, and to the value again once it is enabled; every other field, and
every field at another occurrence, resolves to what it did before. What a refused edit leaves are
the bindings as they were. After a reconciliation with a sequence that calls made, and any edits, a
value can be bound if the group of the occurrence has a slot with the index and of the kind, and the
refusal names what is missing otherwise; the sequences whose calls have 32 bits for their sums are
among those that calls make. -/
theorem editing_agrees (b : Bindings) (o : Occurrence) (index : OverrideIndex) (v : Value) :
    (∀ b₁, b.setOverride o index v = (.ok (), b₁) → ∃ b₂ b₃,
      b₁.setEnabled o index false = (.ok (), b₂) ∧ b₂.setEnabled o index true = (.ok (), b₃) ∧
      ∀ (α : Type) [ValueKind α] [LawfulValueKind α] (field : Field α) (o' : Occurrence),
        if o' = o ∧ field.index = some index ∧ ValueKind.type α = v.type then
          ValueKind.toValue (b₁.resolve field o') = v ∧ b₂.resolve field o' = field.value ∧
            ValueKind.toValue (b₃.resolve field o') = v
        else
          b₁.resolve field o' = b.resolve field o' ∧ b₂.resolve field o' = b.resolve field o' ∧
            b₃.resolve field o' = b.resolve field o') ∧
    (∀ e b', b.setOverride o index v = (.error e, b') → b' = b) ∧
    (∀ enabled e b', b.setEnabled o index enabled = (.error e, b') → b' = b) ∧
    (∀ (H : Host) (root : Sequence H), root.Authored32 → root.Authored) ∧
    ∀ (H : Host) (root : Sequence H) (b₀ : Bindings), root.Authored →
      ReflTransGen Amends (b₀.reconcile root).bindings b →
      ((b.setOverride o index v).1 = .ok () ↔
        ∃ group, b.group? o = some group ∧ group.Has index v.type) ∧
      ((b.setOverride o index v).1 = .error (.groupNotFound o) ↔ b.group? o = none) ∧
      ((b.setOverride o index v).1 = .error (.slotNotFound index) ↔
        ∃ group, b.group? o = some group ∧ ∀ type, ¬ group.Has index type) ∧
      ∀ type, (b.setOverride o index v).1 = .error (.typeMismatch index type v.type) ↔
        type ≠ v.type ∧ ∃ group, b.group? o = some group ∧ group.Has index type := by
  refine ⟨fun b₁ hok => ?_, fun e b' h => unchanged_of_setOverride h,
    fun enabled e b' h => unchanged_of_setEnabled h,
    fun H root hroot => hroot.authored, fun H root b₀ hroot hamends => ?_⟩
  · obtain ⟨slot, hslot, hvalue, htype, hbound⟩ := resolveValue_setOverride hok
    have htyped : slot.value.type = slot.type := by rw [hvalue, htype]
    obtain ⟨b₂, hdisable, hslot₂, hdisabled⟩ := resolveValue_setEnabled hslot htyped false
    obtain ⟨b₃, henable, -, henabled⟩ := resolveValue_setEnabled hslot₂ htyped true
    refine ⟨b₂, b₃, hdisable, henable, fun α _ _ field o' => ?_⟩
    have hkind : field.toDynamic.value.type = ValueKind.type α :=
      LawfulValueKind.type_toValue field.value
    have h₁ := hbound field.toDynamic o'
    have h₂ := hdisabled field.toDynamic o'
    have h₃ := henabled field.toDynamic o'
    rw [hkind] at h₁ h₂ h₃
    rw [htype] at h₂ h₃
    split
    · rename_i haddress
      refine ⟨?_, ?_, ?_⟩
      · rw [toValue_resolve]
        exact h₁.trans (if_pos haddress)
      · rw [resolve, h₂.trans (if_pos haddress)]
        exact congrArg (·.getD field.value) (LawfulValueKind.ofValue?_toValue field.value)
      · rw [toValue_resolve]
        exact (h₃.trans (if_pos haddress)).trans hvalue
    · rename_i haddress
      have hsame₁ := h₁.trans (if_neg haddress)
      have hsame₂ := (h₂.trans (if_neg haddress)).trans hsame₁
      have hsame₃ := (h₃.trans (if_neg haddress)).trans hsame₂
      simp only [resolve, hsame₁, hsame₂, hsame₃, and_self]
  · have haligned : b.Aligned root := by
      induction hamends with
      | refl => exact aligned_reconcile b₀ hroot.tidy
      | tail _ hamend ih => exact ih.amends hamend
    exact haligned.setOverride_iff hroot o index v

/-- The second line of the second dialogue is overridden, put back and overridden again. A number, a
third line and the lines of the comedy itself are refused. -/
theorem editing_agrees_comedy :
    let b := (scribbled.reconcile comedy).bindings
    let o : Occurrence := ⟨dialogue.id, ⟨.ofNat 4⟩⟩
    let line : Field String := ⟨some ⟨1⟩, "Goodbye"⟩
    (∃ b₁ b₂ b₃, b.setOverride o ⟨1⟩ (.string "Farewell") = (.ok (), b₁) ∧
      b₁.setEnabled o ⟨1⟩ false = (.ok (), b₂) ∧ b₂.setEnabled o ⟨1⟩ true = (.ok (), b₃) ∧
      b₁.resolve line o = "Farewell" ∧ b₂.resolve line o = "Goodbye" ∧
      b₃.resolve line o = "Farewell") ∧
    b.setOverride o ⟨1⟩ (.int 7) = (.error (.typeMismatch ⟨1⟩ .string .int), b) ∧
    b.setOverride o ⟨2⟩ (.int 7) = (.error (.slotNotFound ⟨2⟩), b) ∧
    b.setOverride ⟨comedy.id, .root⟩ ⟨1⟩ (.int 7)
      = (.error (.groupNotFound ⟨comedy.id, .root⟩), b) := by
  intro b o line
  have hgroup : (b.group? o).map (fun g => g.slots.map Slot.key)
      = some [⟨⟨0⟩, .string⟩, ⟨⟨1⟩, .string⟩] := by decide +kernel
  have hnone : b.group? ⟨comedy.id, .root⟩ = none := by decide +kernel
  obtain ⟨group, hgroup, hkeys⟩ := Option.map_eq_some_iff.mp hgroup
  have hhas : ∀ index type, group.Has index type ↔
      (⟨index, type⟩ : OverrideKey) ∈ [⟨⟨0⟩, .string⟩, ⟨⟨1⟩, .string⟩] := by
    intro index type
    rw [← hkeys, List.mem_map]
    rfl
  have hrefl : ReflTransGen Amends (scribbled.reconcile comedy).bindings b := .refl
  obtain ⟨hbound, -, -, -, hfits⟩ := editing_agrees b o ⟨1⟩ (.string "Farewell")
  have hok := (hfits Host.none comedy scribbled authored_comedy hrefl).1.mpr
    ⟨group, hgroup, (hhas _ _).mpr (by decide)⟩
  obtain ⟨b₂, b₃, hdisable, henable, hresolve⟩ := hbound _ (Prod.ext hok rfl)
  have hline := hresolve String line o
  rw [if_pos ⟨rfl, rfl, rfl⟩] at hline
  obtain ⟨-, hsame, -, -, hmistyped⟩ := editing_agrees b o ⟨1⟩ (.int 7)
  obtain ⟨-, hsame', -, -, hmissing⟩ := editing_agrees b o ⟨2⟩ (.int 7)
  obtain ⟨-, hsame'', -, -, hunknown⟩ := editing_agrees b ⟨comedy.id, .root⟩ ⟨1⟩ (.int 7)
  have hmistyped := ((hmistyped Host.none comedy scribbled authored_comedy hrefl).2.2.2
    .string).mpr ⟨by decide, group, hgroup, (hhas _ _).mpr (by decide)⟩
  have hmissing := (hmissing Host.none comedy scribbled authored_comedy hrefl).2.2.1.mpr
    ⟨group, hgroup, fun type hhas' => by simpa using (hhas _ type).mp hhas'⟩
  have hunknown := (hunknown Host.none comedy scribbled authored_comedy hrefl).2.1.mpr hnone
  exact ⟨⟨_, b₂, b₃, Prod.ext hok rfl, hdisable, henable, Value.string.inj hline.1, hline.2.1,
    Value.string.inj hline.2.2⟩, Prod.ext hmistyped (hsame _ _ (Prod.ext hmistyped rfl)),
    Prod.ext hmissing (hsame' _ _ (Prod.ext hmissing rfl)),
    Prod.ext hunknown (hsame'' _ _ (Prod.ext hunknown rfl))⟩

end Bindings

end Sequencer
