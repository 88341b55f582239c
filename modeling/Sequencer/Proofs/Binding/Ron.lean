import Sequencer.Binding.Ron
import Sequencer.Proofs.Ron.Coding
import Sequencer.Proofs.Ron.Standard

/-!
# Sequencer.Proofs.Binding.Ron

Bindings are read as they were written, by every lawful library and with every lawful way of writing
identifiers.

Every part has its own lemma, from identifiers up to groups: the coding of the part carries it
(`Uuid.carries`, `Value.carries`, `Slot.carries`, `Group.carries`, `Bindings.carries`). Numbers must
not be NaNs, which no text tells apart, and indices have 32 bits. `Bindings.ofRon_toRon` is the
result for whole bindings.
-/

namespace Sequencer

open Ron

/-! ### Identifiers -/

namespace Uuid

theorem digitValue?_hexDigit (n : Nat) : digitValue? (hexDigit n) = some (n % 16) := by
  have hall : ∀ k < 16, digitValue? (Nat.digitChar k) = some k := by decide
  exact hall _ (Nat.mod_lt n (by decide))

@[simp] theorem length_lowDigits (count n : Nat) : (lowDigits count n).length = count := by
  induction count generalizing n with
  | zero => rfl
  | succ count ih => simp [lowDigits, ih]

/-- The lowest digits of a number are worth it, as far as they go. -/
theorem hexValue?_lowDigits (count n : Nat) :
    hexValue? (lowDigits count n) = some (n % 16 ^ count) := by
  induction count generalizing n with
  | zero => simp [lowDigits, hexValue?, Nat.mod_one]
  | succ count ih =>
      have hrest := ih (n / 16)
      rw [hexValue?] at hrest
      rw [lowDigits, hexValue?, List.foldlM_append, hrest, Nat.pow_succ', Nat.mod_mul]
      simp [digitValue?_hexDigit, Nat.add_comm]

/-- The dashes between groups of digits are taken out again. -/
theorem ofGroups?_groups {a b c d e : List Char} (ha : a.length = 8) (hb : b.length = 4)
    (hc : c.length = 4) (hd : d.length = 4) (he : e.length = 12) :
    ofGroups? (a ++ '-' :: (b ++ '-' :: (c ++ '-' :: (d ++ '-' :: e))))
      = ofDigits? (a ++ b ++ c ++ d ++ e) := by
  simp [ofGroups?, List.getElem?_append, List.drop_append, ha, hb, hc, hd, he,
    List.drop_of_length_le]

@[simp] theorem length_digits (u : Uuid) : u.digits.length = 32 := length_lowDigits 32 _

theorem ofDigits?_digits (u : Uuid) : ofDigits? u.digits = some u := by
  have hlt : u.bits.toNat < 16 ^ 32 := u.bits.isLt
  rw [ofDigits?, if_pos u.length_digits, digits, hexValue?_lowDigits, Nat.mod_eq_of_lt hlt]
  simp [ofNat]

/-- The grouped form of an identifier is read as the identifier. -/
theorem ofChars?_toChars (u : Uuid) : ofChars? u.toChars = some u := by
  have hlength : u.toChars.length = 36 := by simp [toChars]
  have hgroups : u.digits.take 8 ++ (u.digits.drop 8).take 4 ++ (u.digits.drop 12).take 4
      ++ (u.digits.drop 16).take 4 ++ u.digits.drop 20 = u.digits := by
    rw [← List.take_add, ← List.take_add, ← List.take_add, List.take_append_drop]
  rw [ofChars?, if_neg (by omega), if_pos hlength, toChars,
    ofGroups?_groups (by simp) (by simp) (by simp) (by simp) (by simp), hgroups, ofDigits?_digits]

/-- The standard way of writing identifiers is a lawful one. -/
theorem lawful_standard : standard.Lawful := by
  intro u
  have htext : (toString u).toList = u.toChars := String.toList_ofList
  simp only [standard, ofText?]
  rw [htext, ofChars?_toChars]

variable {ids : Spelling}

theorem carries (hids : ids.Lawful) (u : Uuid) (wrapper : String) :
    (coding ids wrapper).Carries u :=
  Coding.carries_newtype (Coding.carries_via (Coding.carries_text _) (hids u)) wrapper

end Uuid

variable {ids : Uuid.Spelling}

theorem SequenceId.carries (hids : ids.Lawful) (id : SequenceId) : (coding ids).Carries id :=
  Coding.carries_via (Uuid.carries hids id.uuid _) rfl

theorem NestedId.carries (hids : ids.Lawful) (id : NestedId) : (coding ids).Carries id :=
  Coding.carries_via (Uuid.carries hids id.uuid _) rfl

theorem EntityId.carries (hids : ids.Lawful) (id : EntityId) : (coding ids).Carries id :=
  Coding.carries_via (Uuid.carries hids id.uuid _) rfl

/-- Indices of 32 bits are carried. -/
theorem OverrideIndex.carries {i : OverrideIndex} (h : i.number < 2 ^ 32) : coding.Carries i := by
  have hlow : IntegerType.u32.low ≤ (i.number : Int) := Int.natCast_nonneg _
  have hhigh : (i.number : Int) ≤ IntegerType.u32.high := by
    simp only [IntegerType.u32]
    omega
  have hnumber : ((Coding.integer .u32).via (fun i : OverrideIndex => (i.number : Int))
      fun n => some ⟨n.toNat⟩).Carries i :=
    Coding.carries_via (Coding.carries_integer hlow hhigh) rfl
  exact Coding.carries_newtype hnumber _

/-! ### Values -/

theorem ValueType.carries (type : ValueType) : coding.Carries type :=
  Coding.carries_units (by cases type <;> decide) (by cases type <;> rfl)

/-- Numbers are carried as a tuple, if none of them is a NaN. -/
theorem carries_numbers {xs : List Single} (hnonempty : xs ≠ [])
    (h : ∀ x ∈ xs, (x == x) = true) {count : Nat} (hcount : xs.length = count) :
    (Coding.single.tuple count).Carries xs :=
  Coding.carries_tuple hnonempty (fun x hx => Coding.carries_single (h x hx)) hcount

namespace Value

/-- The numbers that a value holds. -/
def components : Value → List Single
  | float x => [x]
  | vector2 v => [v.x, v.y]
  | vector3 v => [v.x, v.y, v.z]
  | vector4 v => [v.x, v.y, v.z, v.w]
  | color c => [c.red, c.green, c.blue, c.alpha]
  | _ => []

/-- A value equals itself exactly if its numbers do, that is, if none of them is a NaN. -/
theorem beq_self_iff (v : Value) : (v == v) = true ↔ ∀ x ∈ v.components, (x == x) = true := by
  change Value.beq v v = true ↔ _
  cases v with
  | bool b => simp [Value.beq, components]
  | int n => simp [Value.beq, components]
  | float x => simp [Value.beq, components]
  | vector2 v =>
      change (v.x == v.x && v.y == v.y) = true ↔ _
      simp [components]
  | vector3 v =>
      change (v.x == v.x && v.y == v.y && v.z == v.z) = true ↔ _
      simp [components, and_assoc]
  | vector4 v =>
      change (v.x == v.x && v.y == v.y && v.z == v.z && v.w == v.w) = true ↔ _
      simp [components, and_assoc]
  | color c =>
      change (c.red == c.red && c.green == c.green && c.blue == c.blue && c.alpha == c.alpha) = true
        ↔ _
      simp [components, and_assoc]
  | string s => simp [Value.beq, components]
  | entity id => simp [Value.beq, components]

/-- A value without a NaN is carried, by the variant of its kind. -/
theorem carries (hids : ids.Lawful) {v : Value} (h : (v == v) = true) : (coding ids).Carries v := by
  have hnumbers := (beq_self_iff v).mp h
  cases v with
  | bool b => exact Coding.carries_choice (Coding.carries_bool b) rfl rfl rfl
  | int n => exact Coding.carries_choice (Coding.carries_i32 n) rfl rfl rfl
  | float x => exact Coding.carries_choice (Coding.carries_single h) rfl rfl rfl
  | vector2 v =>
      have htuple := carries_numbers (List.cons_ne_nil _ _) hnumbers rfl
      have hvector : Vector2.coding.Carries v := Coding.carries_via htuple rfl
      exact Coding.carries_choice hvector rfl rfl rfl
  | vector3 v =>
      have htuple := carries_numbers (List.cons_ne_nil _ _) hnumbers rfl
      have hvector : Vector3.coding.Carries v := Coding.carries_via htuple rfl
      exact Coding.carries_choice hvector rfl rfl rfl
  | vector4 v =>
      have htuple := carries_numbers (List.cons_ne_nil _ _) hnumbers rfl
      have hvector : Vector4.coding.Carries v := Coding.carries_via htuple rfl
      exact Coding.carries_choice hvector rfl rfl rfl
  | color c =>
      have htuple := carries_numbers (List.cons_ne_nil _ _) hnumbers rfl
      have hcolor : Color.coding.Carries c :=
        Coding.carries_newtype (Coding.carries_via (b := c) htuple rfl) _
      exact Coding.carries_choice hcolor rfl rfl rfl
  | string s => exact Coding.carries_choice (Coding.carries_text s) rfl rfl rfl
  | entity id => exact Coding.carries_choice (EntityId.carries hids id) rfl rfl rfl

end Value

/-! ### Slots and groups -/

namespace Slot

/-- The slot's value has no NaN, and its index has 32 bits. -/
def Writable (s : Slot) : Prop := (s.value == s.value) = true ∧ s.index.number < 2 ^ 32

instance (s : Slot) : Decidable s.Writable := inferInstanceAs (Decidable (_ ∧ _))

theorem carries (hids : ids.Lawful) {s : Slot} (h : s.Writable) : (coding ids).Carries s := by
  obtain ⟨hvalue, hindex⟩ := h
  have hparts : List.Forall₂ (Coding.Knows (parts ids)) (Coding.fields (parts ids) s) _ :=
    .cons (Coding.knows_of (OverrideIndex.carries hindex) rfl) <|
      .cons (Coding.knows_of (ValueType.carries s.type) rfl) <|
      .cons (Coding.knows_of (Coding.carries_bool s.enabled) rfl) <|
      .cons (Coding.knows_of (Value.carries hids hvalue) rfl) .nil
  have hnodup : ["index", "value_type", "enabled", "value"].Nodup := by decide
  exact Coding.carries_record hparts hnodup (fun _ => rfl) _

end Slot

namespace Group

theorem carries (hids : ids.Lawful) {g : Group} (h : ∀ s ∈ g.slots, s.Writable) :
    (coding ids).Carries g := by
  have hslots : (Slot.coding ids).list.Carries g.slots :=
    Coding.carries_list fun s hs => Slot.carries hids (h s hs)
  have hparts : List.Forall₂ (Coding.Knows (parts ids)) (Coding.fields (parts ids) g) _ :=
    .cons (Coding.knows_of (SequenceId.carries hids g.sequence) rfl) <|
      .cons (Coding.knows_of (NestedId.carries hids g.nested) rfl) <|
      .cons (Coding.knows_of (Coding.carries_text g.name) rfl) <|
      .cons (Coding.knows_of hslots rfl) .nil
  have hnodup : ["sequence", "nested", "sequence_name", "slots"].Nodup := by decide
  exact Coding.carries_record hparts hnodup (fun _ => rfl) _

end Group

/-! ### Bindings -/

namespace Bindings

theorem carries (hids : ids.Lawful) {b : Bindings} (h : ∀ g ∈ b.groups, ∀ s ∈ g.slots, s.Writable) :
    (coding ids).Carries b := by
  have hgroups : (Group.coding ids).list.Carries b.groups :=
    Coding.carries_list fun g hg => Group.carries hids (h g hg)
  have hparts : List.Forall₂ (Coding.Knows (parts ids)) (Coding.fields (parts ids) b) _ :=
    .cons (Coding.knows_of hgroups rfl) .nil
  have hnodup : ["groups"].Nodup := by decide
  exact Coding.carries_record hparts hnodup (fun _ => rfl) _

/-- What is asked for when bindings are read does not depend on how identifiers are written, and can
be read. -/
theorem readable_coding (ids : Uuid.Spelling) : (coding ids).shape.Readable := by
  simp only [coding, parts, Group.coding, Group.parts, Slot.coding, Slot.parts, Value.coding,
    Value.variants, Uuid.coding, SequenceId.coding, NestedId.coding, EntityId.coding, Coding.record,
    Coding.Part.of, Coding.list, Coding.newtype, Coding.via, Coding.choice, Coding.Variant.of,
    List.map_cons, List.map_nil]
  decide +kernel

/-- **Export and import.** Bindings whose values hold no NaN, and whose indices have 32 bits, are
written by every lawful library, and read from that text unchanged. -/
theorem ofRon_toRon {ron : Library} {Spells : Datum → String → Prop} (laws : ron.Lawful Spells)
    {ids : Uuid.Spelling} (hids : ids.Lawful) (b : Bindings)
    (hvalues : ∀ g ∈ b.groups, ∀ s ∈ g.slots, (s.value == s.value) = true)
    (hindices : ∀ g ∈ b.groups, ∀ s ∈ g.slots, s.index.number < 2 ^ 32) :
    ∃ text, b.toRon ron ids = .ok text ∧ ofRon ron ids text = .ok b := by
  have hcarries : (coding ids).Carries b :=
    carries hids fun g hg s hs => ⟨hvalues g hg s hs, hindices g hg s hs⟩
  obtain ⟨text, hprint, hparse⟩ := Coding.exists_print laws (readable_coding ids) hcarries false
  exact ⟨text, by rw [toRon, hprint], by rw [ofRon, hparse]⟩

/-- The bindings of a letter scene: what stands in the letter has quotes, line breaks and characters
that are not seen. -/
def letterScene : Bindings where
  groups :=
    [{ sequence := ⟨.ofNat 1⟩, nested := .root, name := "Act \"One\"",
       slots :=
         [⟨⟨0⟩, .string, true, .string "\"Burn this,\"\n\\ it said.\t\u200E"⟩,
          ⟨⟨1⟩, .color, false, .color ⟨1.0, 0.5, 0.1, 1.0⟩⟩] },
     { sequence := ⟨.ofNat 2⟩, nested := ⟨.ofNat 3⟩, slots := [⟨⟨4⟩, .float, true, .float 0.3⟩] }]

theorem ofRon_toRon_letterScene :
    ∃ text, letterScene.toRon Ron.standard Uuid.standard = .ok text ∧
      ofRon Ron.standard Uuid.standard text = .ok letterScene :=
  ofRon_toRon Ron.lawful_standard Uuid.lawful_standard letterScene (by decide) (by decide)

end Bindings

end Sequencer
