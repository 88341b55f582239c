import Mathlib.Data.List.Induction
import Mathlib.Data.List.Perm.Subperm
import Sequencer.Parameters

/-!
# Sequencer.Proofs.Parameters

A store of parameters is what the calls that wrote to it have left.

* `Write`, `ofHistory`: a call that writes, and the store after a history of them;
* `live`: what the last call about a name has left of it, read off the history alone;
* `Created`: the call that bound a name that was not bound, and that has been bound ever since;
* `Follows`: what every call preserves of the store: it has the live names, each once, in the order
  in which they were created;
* `beq_iff_of_follows`: two stores are equal if their histories leave the same, whatever the order.
-/

namespace Sequencer

/-- Equality of numbers is symmetric. -/
theorem BinaryNumber.beq_comm {f : BinaryFormat} (x y : BinaryNumber f) : (x == y) = (y == x) := by
  by_cases heq : x = y
  · rw [heq]
  · have hbits : x.bits ≠ y.bits := by
      intro hbits
      cases x
      cases y
      exact heq (congrArg BinaryNumber.mk hbits)
    change BinaryNumber.beq x y = BinaryNumber.beq y x
    simp only [BinaryNumber.beq, beq_false_of_ne hbits, beq_false_of_ne hbits.symm]
    rcases x.reading with _ | _ | ⟨_, _ | _⟩ <;> rcases y.reading with _ | _ | ⟨_, _ | _⟩ <;> rfl

/-- Equality of values is symmetric. -/
theorem Value.beq_comm (v w : Value) : (v == w) = (w == v) := by
  change Value.beq v w = Value.beq w v
  -- values of different kinds are not equal in either order
  cases v <;> cases w <;> try rfl
  case bool.bool => exact BEq.comm
  case int.int => exact BEq.comm
  case float.float => exact BinaryNumber.beq_comm _ _
  case vector2.vector2 a b =>
    change (a.x == b.x && a.y == b.y) = (b.x == a.x && b.y == a.y)
    simp only [BinaryNumber.beq_comm]
  case vector3.vector3 a b =>
    change (a.x == b.x && a.y == b.y && a.z == b.z) = (b.x == a.x && b.y == a.y && b.z == a.z)
    simp only [BinaryNumber.beq_comm]
  case vector4.vector4 a b =>
    change (a.x == b.x && a.y == b.y && a.z == b.z && a.w == b.w)
      = (b.x == a.x && b.y == a.y && b.z == a.z && b.w == a.w)
    simp only [BinaryNumber.beq_comm]
  case color.color a b =>
    change (a.red == b.red && a.green == b.green && a.blue == b.blue && a.alpha == b.alpha)
      = (b.red == a.red && b.green == a.green && b.blue == a.blue && b.alpha == a.alpha)
    simp only [BinaryNumber.beq_comm]
  case string.string => exact BEq.comm
  case entity.entity => exact BEq.comm

namespace Parameters

/-- A call that writes to a store. -/
inductive Write : Type 1
  /-- Binds a name to a dynamic value. -/
  | set (name : String) (value : Value)
  /-- Binds a name to a typed value. -/
  | setAs (α : Type) [ValueKind α] (name : String) (a : α)
  /-- Unbinds a name. -/
  | remove (name : String)
  /-- Unbinds all names. -/
  | clear

namespace Write

/-- The store after a call. -/
def apply (p : Parameters) : Write → Parameters
  | set name value => p.set name value
  | setAs _ name a => p.setAs name a
  | remove name => (p.take name).2
  | clear => p.clear

/-- What a call leaves of a name, bound or not, if it is about that name. -/
def effect (name : String) : Write → Option (Option Value)
  | set other value => if other = name then some (some value) else none
  | setAs _ other a => if other = name then some (some (ValueKind.toValue a)) else none
  | remove other => if other = name then some none else none
  | clear => some none

end Write

/-- The store that a history of calls on an empty one has left. -/
def ofHistory (history : List Write) : Parameters := history.foldl Write.apply .empty

@[simp] theorem ofHistory_nil : ofHistory [] = .empty := rfl

@[simp] theorem ofHistory_append_singleton (history : List Write) (w : Write) :
    ofHistory (history ++ [w]) = w.apply (ofHistory history) := by
  simp [ofHistory]

/-! ### Histories -/

/-- What the last call about a name has left of it. -/
def live (history : List Write) (name : String) : Option Value :=
  ((history.filterMap (·.effect name)).getLast?).join

/-- Call number `i` bound a name that was not bound, and no later call has unbound it. -/
structure Created (history : List Write) (name : String) (i : Nat) : Prop where
  /-- The name was not bound before. -/
  unbound : live (history.take i) name = none
  /-- The call binds it. -/
  binds : ∃ w value, history[i]? = some w ∧ w.effect name = some (some value)
  /-- No call since unbinds it. -/
  kept : ∀ w ∈ history.drop i, w.effect name ≠ some none

variable {history : List Write} {name : String} {w : Write} {i j : Nat}

@[simp] theorem live_nil (name : String) : live [] name = none := rfl

@[simp] theorem live_append_singleton (history : List Write) (w : Write) (name : String) :
    live (history ++ [w]) name = (w.effect name).getD (live history name) := by
  cases heffect : w.effect name <;> simp [live, heffect]

theorem Created.lt_length (h : Created history name i) : i < history.length := by
  obtain ⟨w, value, hw, -⟩ := h.binds
  exact (List.getElem?_eq_some_iff.mp hw).1

/-- A call that does not unbind a name has nothing to do with its creation. -/
theorem Created.append (h : Created history name i) (hw : w.effect name ≠ some none) :
    Created (history ++ [w]) name i := by
  have hi : i ≤ history.length := Nat.le_of_lt h.lt_length
  obtain ⟨v, value, hv, hbinds⟩ := h.binds
  refine ⟨?_, ⟨v, value, ?_, hbinds⟩, ?_⟩
  · rw [List.take_append_of_le_length hi]
    exact h.unbound
  · rw [List.getElem?_append_left h.lt_length]
    exact hv
  · intro x hx
    rw [List.drop_append_of_le_length hi, List.mem_append, List.mem_singleton] at hx
    rcases hx with hx | rfl
    · exact h.kept x hx
    · exact hw

/-- A call that binds a name that is not bound creates it. -/
theorem created_last {value : Value} (hlive : live history name = none)
    (hw : w.effect name = some (some value)) :
    Created (history ++ [w]) name history.length := by
  refine ⟨by simpa using hlive, ⟨w, value, by simp, hw⟩, ?_⟩
  simp [hw]

/-- A name is live from the call that created it on. -/
theorem Created.live_take (h : Created history name i) (hij : i < j) (hj : j ≤ history.length) :
    (live (history.take j) name).isSome := by
  obtain ⟨w, value, hw, hbinds⟩ := h.binds
  induction hij with
  | refl =>
      rw [List.take_add_one, hw, Option.toList_some, live_append_singleton, hbinds]
      rfl
  | @step j hij ih =>
      have hlt : j < history.length := hj
      have hle : i ≤ j := Nat.le_of_lt hij
      rw [List.take_add_one, List.getElem?_eq_getElem hlt, Option.toList_some,
        live_append_singleton]
      have hkept : history[j].effect name ≠ some none := by
        refine h.kept _ (List.mem_iff_getElem?.mpr ⟨j - i, ?_⟩)
        rw [List.getElem?_drop, Nat.add_sub_cancel' hle, List.getElem?_eq_getElem hlt]
      rcases heffect : history[j].effect name with _ | _ | value
      · exact ih (Nat.le_of_lt hlt)
      · exact absurd heffect hkept
      · rfl

/-- Only one call created a name. -/
theorem Created.unique (hi : Created history name i) (hj : Created history name j) : i = j := by
  rcases Nat.lt_trichotomy i j with hlt | heq | hlt
  · have := hi.live_take hlt (Nat.le_of_lt hj.lt_length)
    simp [hj.unbound] at this
  · exact heq
  · have := hj.live_take hlt (Nat.le_of_lt hi.lt_length)
    simp [hi.unbound] at this

/-- Every live name was created by some call. -/
theorem exists_created (h : (live history name).isSome) : ∃ i, Created history name i := by
  induction history using List.reverseRecOn with
  | nil => simp at h
  | append_singleton history w ih =>
      rw [live_append_singleton] at h
      rcases heffect : w.effect name with _ | _ | value
      · rw [heffect] at h
        obtain ⟨i, hi⟩ := ih h
        exact ⟨i, hi.append (by simp [heffect])⟩
      · simp [heffect] at h
      · cases hlive : live history name with
        | none => exact ⟨_, created_last hlive heffect⟩
        | some old =>
            obtain ⟨i, hi⟩ := ih (by simp [hlive])
            exact ⟨i, hi.append (by simp [heffect])⟩

theorem isSome_live_iff : (live history name).isSome ↔ ∃! i, Created history name i := by
  constructor
  · intro h
    obtain ⟨i, hi⟩ := exists_created h
    exact ⟨i, hi, fun j hj => hj.unique hi⟩
  · rintro ⟨i, hi, -⟩
    simpa using hi.live_take hi.lt_length (Nat.le_refl _)

/-! ### One call on a store -/

/-- The names, in order. -/
def names (p : Parameters) : List String := p.entries.map (·.1)

theorem lookup_cons (name : String) (e : String × Value) (rest : List (String × Value)) :
    (e :: rest).lookup name = if e.1 = name then some e.2 else rest.lookup name := by
  obtain ⟨first, value⟩ := e
  by_cases h : first = name
  · rw [if_pos h, h, List.lookup_cons_self]
  · rw [if_neg h, List.lookup_cons, beq_false_of_ne (Ne.symm h)]

theorem mem_names_iff {p : Parameters} : name ∈ p.names ↔ (p.value? name).isSome := by
  obtain ⟨entries⟩ := p
  simp only [names, value?]
  induction entries with
  | nil => simp
  | cons e rest ih =>
      rw [List.map_cons, List.mem_cons, lookup_cons, ih]
      by_cases h : e.1 = name
      · simp [h]
      · simp [h, Ne.symm h]

/-- With each name once, lookups find all entries. -/
theorem mem_entries_iff {p : Parameters} (h : p.names.Nodup) {value : Value} :
    (name, value) ∈ p.entries ↔ p.value? name = some value := by
  obtain ⟨entries⟩ := p
  simp only [names, value?] at h ⊢
  induction entries with
  | nil => simp
  | cons e rest ih =>
      obtain ⟨hnew, hrest⟩ := List.nodup_cons.mp h
      rw [List.mem_cons, ih hrest, lookup_cons]
      by_cases hname : e.1 = name
      · subst hname
        have hmem : (e.1, value) ∉ rest := fun hmem => hnew (List.mem_map_of_mem (f := (·.1)) hmem)
        simp [← ih hrest, Prod.ext_iff, eq_comm, hmem]
      · simp [Prod.ext_iff, hname, Ne.symm hname]

theorem map_fst_replace (name : String) (value : Value) (entries : List (String × Value)) :
    (replace name value entries).map (·.1) = entries.map (·.1) := by
  induction entries with
  | nil => rfl
  | cons e rest ih =>
      rw [replace]
      split
      · simp [*]
      · simp [ih]

theorem lookup_replace (name other : String) (value : Value) (entries : List (String × Value))
    (h : (entries.lookup name).isSome) :
    (replace name value entries).lookup other
      = if name = other then some value else entries.lookup other := by
  induction entries with
  | nil => simp at h
  | cons e rest ih =>
      rw [lookup_cons] at h
      rw [replace]
      split
      next heq =>
        subst heq
        simp only [lookup_cons]
        split <;> rfl
      next hne =>
        rw [if_neg hne] at h
        rw [lookup_cons, lookup_cons, ih h]
        by_cases hother : e.1 = other
        · simp [hother, hother ▸ Ne.symm hne]
        · simp [hother]

/-- A write changes what is found under its name and nothing else. -/
@[simp] theorem value?_set (p : Parameters) (name other : String) (value : Value) :
    (p.set name value).value? other = if name = other then some value else p.value? other := by
  by_cases h : p.contains name
  · simp only [set, value?, if_pos h]
    exact lookup_replace name other value p.entries h
  · simp only [set, value?, if_neg h]
    simp only [contains, value?, Option.not_isSome_iff_eq_none] at h
    rw [List.lookup_append, lookup_cons]
    by_cases hother : name = other
    · simp [hother, hother ▸ h]
    · simp [hother]

/-- A name that is bound keeps its place, and a new one comes last. -/
theorem names_set (p : Parameters) (name : String) (value : Value) :
    (p.set name value).names = if name ∈ p.names then p.names else p.names ++ [name] := by
  by_cases h : p.contains name
  · rw [if_pos (mem_names_iff.mpr h)]
    simp only [set, names, if_pos h]
    exact map_fst_replace name value p.entries
  · rw [if_neg (mt mem_names_iff.mp h)]
    simp [set, names, if_neg h]

/-- A removal takes the first entry of its name out of the list. -/
theorem names_remove (p : Parameters) (name : String) :
    (p.remove name).names = p.names.erase name := by
  simp only [names, remove, List.erase_eq_eraseP', List.eraseP_map]
  rfl

theorem value?_remove {p : Parameters} (h : p.names.Nodup) (name other : String) :
    (p.remove name).value? other = if name = other then none else p.value? other := by
  have hnodup : (p.remove name).names.Nodup := by
    rw [names_remove]
    exact h.erase name
  refine Option.ext fun value => ?_
  rw [← mem_entries_iff hnodup, remove]
  split
  next heq =>
    subst heq
    have hgone : name ∉ (p.remove name).names := by
      rw [names_remove]
      exact h.not_mem_erase
    simpa using fun hmem => hgone (List.mem_map_of_mem hmem)
  next hne =>
    rw [← mem_entries_iff h]
    exact List.mem_eraseP_of_neg (by simpa using Ne.symm hne)

/-! ### A history of calls -/

/-- What every call preserves: the names of a store are those that are live, each once, in the order
in which they were created. -/
structure Follows (p : Parameters) (history : List Write) : Prop where
  /-- Each name is there once. -/
  nodup : p.names.Nodup
  /-- What is found is what the last call has left. -/
  value?_eq : ∀ name, p.value? name = live history name
  /-- A name stands in front of those that were created later. -/
  ordered : p.names.Pairwise fun a b => ∃ i j, i < j ∧ Created history a i ∧ Created history b j

variable {p : Parameters}

theorem follows_empty : Follows .empty [] := ⟨.nil, fun _ => rfl, .nil⟩

theorem Follows.mem_names_iff (h : p.Follows history) :
    name ∈ p.names ↔ (live history name).isSome := by
  rw [Parameters.mem_names_iff, h.value?_eq]

/-- Names that a call does not unbind stay in order. -/
theorem Follows.pairwise (h : p.Follows history) {kept : List String} (hsub : kept.Sublist p.names)
    (hkept : ∀ name ∈ kept, w.effect name ≠ some none) :
    kept.Pairwise fun a b =>
      ∃ i j, i < j ∧ Created (history ++ [w]) a i ∧ Created (history ++ [w]) b j := by
  refine (h.ordered.sublist hsub).imp_of_mem fun {a b} ha hb => ?_
  rintro ⟨i, j, hij, hi, hj⟩
  exact ⟨i, j, hij, hi.append (hkept a ha), hj.append (hkept b hb)⟩

/-- A write of a value, whether it is typed or not, preserves it. -/
theorem Follows.set (h : p.Follows history) (name : String) {value : Value}
    (hw : ∀ other, w.effect other = if name = other then some (some value) else none) :
    (p.set name value).Follows (history ++ [w]) := by
  have hkeeps : ∀ other, w.effect other ≠ some none := by
    intro other
    rw [hw]
    split <;> simp
  refine ⟨?_, ?_, ?_⟩
  · rw [names_set]
    split
    next => exact h.nodup
    next hnew =>
      refine List.nodup_append.mpr ⟨h.nodup, by simp, fun a ha b hb heq => hnew ?_⟩
      rwa [← List.mem_singleton.mp hb, ← heq]
  · intro other
    rw [value?_set, live_append_singleton, hw, h.value?_eq]
    split <;> rfl
  · rw [names_set]
    split
    next => exact h.pairwise (.refl _) fun other _ => hkeeps other
    next hnew =>
      refine List.pairwise_append.mpr
        ⟨h.pairwise (.refl _) fun other _ => hkeeps other, by simp, ?_⟩
      -- the new name is created by this call, all others by earlier ones
      intro other hother new hmem
      obtain rfl := List.mem_singleton.mp hmem
      obtain ⟨i, hi⟩ := exists_created (h.mem_names_iff.mp hother)
      have hlive : live history new = none := by
        simpa using mt h.mem_names_iff.mpr hnew
      exact ⟨i, history.length, hi.lt_length, hi.append (hkeeps other),
        created_last hlive ((hw new).trans (if_pos rfl))⟩

/-- **One call.** Every call preserves it. -/
theorem Follows.apply (h : p.Follows history) (w : Write) :
    (w.apply p).Follows (history ++ [w]) := by
  cases w with
  | set name value => exact h.set name fun _ => rfl
  | setAs α name a => exact h.set name fun _ => rfl
  | remove name =>
      refine ⟨?_, ?_, ?_⟩
      · rw [Write.apply, take, names_remove]
        exact h.nodup.erase name
      · intro other
        rw [Write.apply, take, value?_remove h.nodup, live_append_singleton, Write.effect,
          h.value?_eq]
        split <;> rfl
      · rw [Write.apply, take, names_remove]
        refine h.pairwise List.erase_sublist fun other hother => ?_
        have hne : name ≠ other := by
          rintro rfl
          exact h.nodup.not_mem_erase hother
        simp [Write.effect, hne]
  | clear =>
      refine ⟨List.nodup_nil, fun name => ?_, List.Pairwise.nil⟩
      rw [live_append_singleton]
      rfl

/-- **A history of calls.** Every history of calls on an empty store preserves it. -/
theorem follows_ofHistory (history : List Write) : (ofHistory history).Follows history := by
  induction history using List.reverseRecOn with
  | nil => exact follows_empty
  | append_singleton history w ih =>
      rw [ofHistory_append_singleton]
      exact ih.apply w

/-! ### Equality -/

/-- Stores of the same names are of the same size. -/
theorem size_eq_of_names {p q : Parameters} (hp : p.names.Nodup) (hq : q.names.Nodup)
    (h : ∀ name, name ∈ p.names ↔ name ∈ q.names) : p.size = q.size := by
  have hperm : p.names.Perm q.names := (List.perm_ext_iff_of_nodup hp hq).mpr h
  simpa [names, size] using hperm.length_eq

/-- Stores of one size have the same names if the one has all names of the other. -/
theorem mem_names_of_size {p q : Parameters} (hp : p.names.Nodup) (hsize : p.size = q.size)
    (h : ∀ name ∈ p.names, name ∈ q.names) (hname : name ∈ q.names) : name ∈ p.names := by
  have hsub : p.names.Subperm q.names := hp.subperm h
  have hlength : q.names.length ≤ p.names.length := by
    simpa [names, size] using Nat.le_of_eq hsize.symm
  exact (hsub.perm_of_length_le hlength).mem_iff.mpr hname

/-- Stores are equal if they bind the same names to equal values. -/
theorem beq_iff_of_nodup {p q : Parameters} (hp : p.names.Nodup) (hq : q.names.Nodup) :
    (p == q) = true ↔
      ∀ name, Option.Rel (fun a b => (a == b) = true) (p.value? name) (q.value? name) := by
  have hbeq : (p == q) = (p.size == q.size &&
      p.entries.all fun e => q.value? e.1 == some e.2) := rfl
  rw [hbeq, Bool.and_eq_true, beq_iff_eq, List.all_eq_true]
  constructor
  · rintro ⟨hsize, hall⟩ name
    have hsub : ∀ name ∈ p.names, name ∈ q.names := by
      intro name hname
      obtain ⟨e, he, rfl⟩ := List.mem_map.mp hname
      have := hall e he
      cases hq' : q.value? e.1 with
      | none => simp [hq'] at this
      | some b => simp [mem_names_iff, hq']
    cases hvalue : p.value? name with
    | none =>
        have hnot : name ∉ q.names := fun hname => by
          have := mem_names_iff.mp (mem_names_of_size hp hsize hsub hname)
          simp [hvalue] at this
        have hnone : q.value? name = none := by
          simpa using mt mem_names_iff.mpr hnot
        rw [hnone]
        exact .none
    | some a =>
        have := hall (name, a) ((mem_entries_iff hp).mpr hvalue)
        cases hother : q.value? name with
        | none => simp [hother] at this
        | some b => exact .some (by simpa [hother, Value.beq_comm a b] using this)
  · intro hrel
    refine ⟨size_eq_of_names hp hq fun name => ?_, fun e he => ?_⟩
    · have hname := hrel name
      rw [mem_names_iff, mem_names_iff]
      generalize p.value? name = a, q.value? name = b at hname
      cases hname <;> simp
    · have hname := hrel e.1
      rw [(mem_entries_iff hp).mp he] at hname
      generalize q.value? e.1 = b at hname ⊢
      cases hname with
      | some hab => simpa [Value.beq_comm] using hab

/-! ### The theorem -/

/-- **A store is an ordered map.** After any history of calls on an empty store, its entries are the
live names, each once, with the value that was written last. Each live name was created by one call,
and stands in front of the names that were created later. What is taken is the live value; a typed
lookup finds the live value if it is of that type, and nothing otherwise. Two stores are equal if
they bind the same names to equal values, whatever the order. -/
theorem store_ordered (history : List Write) :
    let p := ofHistory history
    p.names.Nodup ∧
    (∀ name value, (name, value) ∈ p.entries ↔ live history name = some value) ∧
    (∀ name, (live history name).isSome ↔ ∃! i, Created history name i) ∧
    (p.names.Pairwise fun a b => ∃ i j, i < j ∧ Created history a i ∧ Created history b j) ∧
    (∀ name, (p.take name).1 = live history name) ∧
    (∀ (α : Type) [ValueKind α] [ExactValueKind α] (name : String),
      (∀ a : α, p.get? α name = some a ↔ live history name = some (ValueKind.toValue a)) ∧
      ((p.get? α name).isSome ↔
        ∃ value, live history name = some value ∧ value.type = ValueKind.type α)) ∧
    ∀ history', (p == ofHistory history') = true ↔
      ∀ name, Option.Rel (fun a b => (a == b) = true) (live history name) (live history' name) := by
  intro p
  have h : p.Follows history := follows_ofHistory history
  refine ⟨h.nodup, fun name value => ?_, fun name => isSome_live_iff, h.ordered, h.value?_eq,
    ?_, ?_⟩
  · rw [mem_entries_iff h.nodup, h.value?_eq]
  · intro α _ _ name
    have htyped : ∀ a : α, p.get? α name = some a ↔
        live history name = some (ValueKind.toValue a) := by
      intro a
      rw [get?, h.value?_eq, Option.bind_eq_some_iff]
      constructor
      · rintro ⟨value, hlive, hread⟩
        rwa [← ofValue?_eq_some_iff.mp hread]
      · intro hlive
        exact ⟨_, hlive, ofValue?_eq_some_iff.mpr rfl⟩
    refine ⟨htyped, ?_⟩
    rw [Option.isSome_iff_exists]
    constructor
    · rintro ⟨a, ha⟩
      exact ⟨_, (htyped a).mp ha, LawfulValueKind.type_toValue a⟩
    · rintro ⟨value, hlive, htype⟩
      obtain ⟨a, rfl⟩ := LawfulValueKind.exists_of_type value htype
      exact ⟨a, (htyped a).mpr hlive⟩
  · intro history'
    have h' : (ofHistory history').Follows history' := follows_ofHistory history'
    rw [beq_iff_of_nodup h.nodup h'.nodup]
    simp only [h.value?_eq, h'.value?_eq]

/-- The properties of a play are put on the table: the lamp is lit later, and the letter is taken
away and comes back. -/
def props : List Write :=
  [.set "letter" (.int 1), .setAs Bool "lamp" false, .set "door" (.string "shut"),
    .remove "letter", .set "lamp" (.bool true), .set "letter" (.int 2)]

/-- The lamp kept its place, the letter is last, and the lamp is no number. -/
theorem store_ordered_props :
    (ofHistory props).entries
      = [("lamp", .bool true), ("door", .string "shut"), ("letter", .int 2)] ∧
    (ofHistory props).get? Bool "lamp" = some true ∧
    (ofHistory props).get? Int32 "lamp" = none ∧
    (ofHistory props == ofHistory
      [.clear, .set "letter" (.int 2), .setAs Bool "lamp" true, .set "door" (.string "shut")])
      = true := by
  obtain ⟨-, -, -, -, -, htyped, hequal⟩ := store_ordered props
  have hlamp : live props "lamp" = some (.bool true) := rfl
  refine ⟨rfl, ((htyped Bool "lamp").1 true).mpr hlamp, ?_, (hequal _).mpr fun name => ?_⟩
  · rw [← Option.not_isSome_iff_eq_none, (htyped Int32 "lamp").2]
    rintro ⟨value, hlive, htype⟩
    obtain rfl := Option.some.inj (hlamp.symm.trans hlive)
    cases htype
  · by_cases hletter : "letter" = name
    · subst hletter
      exact .some rfl
    by_cases hlamp : "lamp" = name
    · subst hlamp
      exact .some rfl
    by_cases hdoor : "door" = name
    · subst hdoor
      exact .some rfl
    · simp [live, props, Write.effect, hletter, hlamp, hdoor]

end Parameters

end Sequencer
